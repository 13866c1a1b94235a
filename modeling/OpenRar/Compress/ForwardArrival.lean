import OpenRar.Compress.MatchFinder

/-!
# The forward-arrival parser

Embedding of `evaluate_forward_arrival`: a dynamic programme over the next sixteen
bytes that picks the token at the current position.  A node of the programme holds
the cheapest known way to reach an offset, with the last token of that way; the
decision is the first token of the cheapest way to the horizon.

The prices decide which token is taken and nothing else.  The statement about the
programme is that whatever the prices are, the decision is a literal or a token whose
bytes were compared.
-/

namespace OpenRar.Compress

open OpenRar.Core List

/-- The token that the parser decides on: `ForwardArrivalDecision` without its cost. -/
inductive Decision
  | literal
  | match_ (len dist : Nat)
  | rep (index len : Nat)
  | lastLen (len : Nat)
  deriving DecidableEq, Repr

/-- `ArrivalNode` -/
structure ArrivalNode where
  cost : Nat
  fromOffset : Nat
  token : Decision
  oldDist : List Nat
  lastLen : Nat

namespace Compressor50

variable (c : Compressor50)

/-! ## Prices -/

/-- `DP_INF` -/
def dpInf : Nat := 2 ^ 32 - 1

/-- `price_match` -/
def priceMatch (len dist : Nat) : Nat :=
  let inc := lengthIncrement dist
  if len < inc + c.minMatch then dpInf
  else
    let (lenSlot, _, bits) := lengthToSlot (min (len - inc) maxLzMatch)
    if lenSlot ≥ 44 then dpInf
    else
      let (distSlot, distExtra, rawBits) := distanceToSlot dist
      if distSlot ≥ 80 then dpInf
      else
        c.prices.lenCost lenSlot + bits * 2 ^ 8 + c.prices.distCost distSlot +
          if rawBits ≥ 4 then (rawBits - 4) * 2 ^ 8 + c.prices.lddCost (distExtra % 16)
          else rawBits * 2 ^ 8

/-- `price_rep` -/
def priceRep (index len : Nat) : Nat :=
  if len < 2 ∨ index ≥ 4 then dpInf
  else
    let (lenSlot, _, bits) := lengthToSlot (min len maxLzMatch)
    if lenSlot ≥ 44 then dpInf else c.prices.repCost index lenSlot + bits * 2 ^ 8

/-! ## The programme -/

/-- The repeat distances after distance `index` of them was used. -/
def rotated (oldDist : List Nat) (index : Nat) : List Nat :=
  oldDist.getD index 0 :: oldDist.eraseIdx index

/-- A node that was not reached. -/
def unreached : ArrivalNode where
  cost := dpInf
  fromOffset := 0
  token := .literal
  oldDist := c.oldDist
  lastLen := c.lastLength

/-- A cheaper way replaces the known one. -/
def relax (nodes : List ArrivalNode) (j : Nat) (node : ArrivalNode) : List ArrivalNode :=
  if node.cost < (nodes.getD j c.unreached).cost then nodes.set j node else nodes

/-- `store_candidate`: a way of one token. -/
def storeCandidate (hEff : Nat) (nodes : List ArrivalNode) (token : Decision)
    (tokenLen cost : Nat) (oldDist : List Nat) (lastLen : Nat) : List ArrivalNode :=
  if cost ≥ dpInf then nodes
  else c.relax nodes (min tokenLen hEff) ⟨cost, 0, token, oldDist, lastLen⟩

/-- The best repeat match at the current position. -/
def storeRep (repBestLen : Nat) (repIdx : Option Nat) (avail hEff : Nat)
    (nodes : List ArrivalNode) : List ArrivalNode :=
  match repIdx with
  | some idx =>
    if repBestLen ≥ c.minMatch then
      let rlen := min repBestLen avail
      c.storeCandidate hEff nodes (.rep idx rlen) rlen (c.priceRep idx rlen)
        (rotated c.oldDist idx) rlen
    else nodes
  | none => nodes

/-- The repeat of the last length at the current position. -/
def storeLastLen (repBestLen : Nat) (repIdx : Option Nat) (hEff : Nat)
    (nodes : List ArrivalNode) : List ArrivalNode :=
  if ¬ c.lastlenSuppressed ∧ c.lastLength ≠ 0 ∧ repBestLen = c.lastLength ∧ repIdx = some 0 then
    c.storeCandidate hEff nodes (.lastLen repBestLen) repBestLen c.prices.slot257Cost c.oldDist
      repBestLen
  else nodes

/-- The fresh match at the current position. -/
def storeMatch (cur matchLen : Nat) (matchCandidate : Option Nat)
    (avail hEff : Nat) (nodes : List ArrivalNode) : List ArrivalNode :=
  match matchCandidate with
  | some cand =>
    let mlen := min matchLen avail
    let mdist := cur - cand
    if matchLen ≥ c.minMatch ∧ mlen ≥ lengthIncrement mdist + c.minMatch then
      c.storeCandidate hEff nodes (.match_ mlen mdist) mlen (c.priceMatch mlen mdist)
        (mdist :: c.oldDist.take 3) mlen
    else nodes
  | none => nodes

/-- The four candidates at the current position. -/
def firstTokens (cur matchLen : Nat) (matchCandidate : Option Nat)
    (repBestLen : Nat) (repIdx : Option Nat) (avail hEff : Nat) : List ArrivalNode :=
  let nodes := { c.unreached with cost := 0 } :: List.replicate 16 c.unreached
  let nodes := c.storeCandidate hEff nodes .literal 1 (c.prices.litCost (c.byteAt cur).toNat)
    c.oldDist c.lastLength
  let nodes := c.storeRep repBestLen repIdx avail hEff nodes
  let nodes := c.storeLastLen repBestLen repIdx hEff nodes
  c.storeMatch cur matchLen matchCandidate avail hEff nodes

/-- Continue the way to offset `i` with a token. -/
def extendWay (hEff i : Nat) (node : ArrivalNode) (nodes : List ArrivalNode)
    (token : Decision) (tokenLen cost : Nat) (oldDist : List Nat) (lastLen : Nat) :
    List ArrivalNode :=
  if cost ≥ dpInf then nodes
  else c.relax nodes (min (i + tokenLen) hEff) ⟨node.cost + cost, i, token, oldDist, lastLen⟩

/-- The repeat matches at offset `i` with repeat distance `r`. -/
def extendRep (pos hEff avail i : Nat) (node : ArrivalNode)
    (nodes : List ArrivalNode) (r : Nat) : List ArrivalNode :=
  let repD := node.oldDist.getD r 0
  if repD ≠ sizeMax ∧ repD ≠ 0 ∧ repD ≤ pos - c.posBase ∧ repD ≤ c.maxDist ∧
      avail ≥ c.minMatch ∧ c.byteAt pos = c.byteAt (pos - repD) then
    let repLen := c.repLength pos repD (min avail (hEff - i))
    if repLen ≥ c.minMatch then
      let nodes :=
        if ¬ c.lastlenSuppressed ∧ r = 0 ∧ node.lastLen ≥ c.minMatch ∧ repLen = node.lastLen then
          c.extendWay hEff i node nodes (.lastLen node.lastLen) node.lastLen
            c.prices.slot257Cost node.oldDist node.lastLen
        else nodes
      c.extendWay hEff i node nodes (.rep r repLen) repLen (c.priceRep r repLen)
        (rotated node.oldDist r) repLen
    else nodes
  else nodes

/-- The fresh match at the next position, the only one that is searched again. -/
def extendMatch (pos hEff avail i : Nat) (node : ArrivalNode)
    (nodes : List ArrivalNode) : List ArrivalNode :=
  let mi := c.findMatch pos (min c.maxChain 16) c.niceLen
  match mi.candidate with
  | some cand =>
    let mlen := min mi.length avail
    let mdist := pos - cand
    if mi.length ≥ 3 ∧ mlen ≥ 3 ∧ mlen ≥ lengthIncrement mdist + 2 then
      c.extendWay hEff i node nodes (.match_ mlen mdist) mlen (c.priceMatch mlen mdist)
        (mdist :: node.oldDist.take 3) mlen
    else nodes
  | none => nodes

/-- One pass of the propagation loop. -/
def propagate (cur matchLen repBestLen curMaxLz hEff : Nat)
    (nodes : List ArrivalNode) (i : Nat) : List ArrivalNode :=
  let node := nodes.getD i c.unreached
  let pos := cur + i
  if node.cost = dpInf ∨ c.availAt pos = 0 then nodes
  else
    let avail := min (c.availAt pos) curMaxLz
    let nodes :=
      if avail ≥ 1 then
        c.relax nodes (min (i + 1) hEff)
          ⟨node.cost + c.prices.litCost (c.byteAt pos).toNat, i, .literal, node.oldDist,
            node.lastLen⟩
      else nodes
    let nodes := (List.range 4).foldl (c.extendRep pos hEff avail i node) nodes
    if i = 1 ∧ (matchLen ≥ 3 ∨ repBestLen ≥ 2) ∧ avail ≥ 3 then
      c.extendMatch pos hEff avail i node nodes
    else nodes

/-- The last offset up to the horizon that was reached. -/
def lastReached (nodes : List ArrivalNode) : Nat → Option Nat
  | 0 => none
  | t + 1 => if (nodes.getD (t + 1) c.unreached).cost < dpInf then some (t + 1)
      else lastReached nodes t

/-- The trace back to the first token of a way. -/
def traceBack (nodes : List ArrivalNode) : Nat → Nat → Decision
  | 0, _ => .literal
  | fuel + 1, offset =>
    if offset = 0 then .literal
    else
      let node := nodes.getD offset c.unreached
      if node.fromOffset = 0 then node.token else traceBack nodes fuel node.fromOffset

/-- The programme over the horizon. -/
def searchHorizon (cur matchLen : Nat) (matchCandidate : Option Nat)
    (repBestLen : Nat) (repIdx : Option Nat) (curMaxLz : Nat) : Decision :=
  let avail := min (c.availAt cur) curMaxLz
  let hEff := min 16 avail
  let nodes := c.firstTokens cur matchLen matchCandidate repBestLen repIdx avail hEff
  let nodes := (List.range hEff).foldl (c.propagate cur matchLen repBestLen curMaxLz hEff) nodes
  match c.lastReached nodes hEff with
  | none => .literal
  | some target => c.traceBack nodes (target + 1) target

/-- A long enough repeat match is taken without a search. -/
def longRep (matchLen repBestLen : Nat) (repIdx : Option Nat) (avail : Nat) : Option Decision :=
  match repIdx with
  | some idx =>
    if repBestLen ≥ c.niceLen ∧ repBestLen ≥ matchLen then
      if ¬ c.lastlenSuppressed ∧ idx = 0 ∧ c.lastLength ≠ 0 ∧ repBestLen = c.lastLength then
        some (.lastLen (min repBestLen avail))
      else some (.rep idx (min repBestLen avail))
    else none
  | none => none

/-- A long enough fresh match is taken without a search. -/
def longMatch (cur matchLen : Nat) (matchCandidate : Option Nat) (avail : Nat) : Option Decision :=
  match matchCandidate with
  | some cand =>
    if matchLen ≥ c.niceLen ∧ matchLen ≥ lengthIncrement (cur - cand) + c.minMatch then
      some (.match_ (min matchLen avail) (cur - cand))
    else none
  | none => none

/-- `evaluate_forward_arrival` -/
def evaluateForwardArrival (cur matchLen : Nat) (matchCandidate : Option Nat)
    (repBestLen : Nat) (repIdx : Option Nat) (curMaxLz : Nat) : Decision :=
  let avail := min (c.availAt cur) curMaxLz
  if avail = 0 then .literal
  else
    match c.longRep matchLen repBestLen repIdx avail with
    | some decision => decision
    | none =>
      match c.longMatch cur matchLen matchCandidate avail with
      | some decision => decision
      | none => c.searchHorizon cur matchLen matchCandidate repBestLen repIdx curMaxLz

/-! ## Every decision was compared -/

/-- A repeat distance that gives `len` bytes at the current position. -/
def RepAt (cur index len : Nat) : Prop :=
  ∃ dist, c.oldDist[index]? = some dist ∧ dist ≠ sizeMax ∧ 0 < dist ∧ dist ≤ cur ∧
    Compared c cur len (cur - dist)

/-- What a decision promises, within the room that is left in a region. -/
def Admissible (cur room : Nat) : Decision → Prop
  | .literal => True
  | .match_ len dist => 0 < dist ∧ dist ≤ cur ∧ len ≤ room ∧ Compared c cur len (cur - dist)
  | .rep index len => index < 4 ∧ 2 ≤ len ∧ len ≤ room ∧ RepAt c cur index len
  | .lastLen len => len = c.lastLength ∧ len ≠ 0 ∧ len ≤ room ∧ RepAt c cur 0 len

/-- The parameters and candidates under which a decision is made. -/
structure Candidates (cur matchLen : Nat) (matchCandidate : Option Nat)
    (repBestLen : Nat) (repIdx : Option Nat) (room : Nat) : Prop where
  minMatch : 2 ≤ c.minMatch
  niceLen : 2 ≤ c.niceLen
  reps : c.oldDist.length = 4
  matchLen_le : matchLen ≤ room
  found : MatchInfo.Sound c cur ⟨matchLen, matchCandidate⟩
  repLen_le : repBestLen ≤ room
  repFound : ∀ idx, repIdx = some idx → idx < 4 ∧ RepAt c cur idx repBestLen

variable {c}

theorem RepAt.inside {cur index len : Nat} (h : RepAt c cur index len) :
    cur + len ≤ c.srcLoaded := by
  obtain ⟨_, _, _, _, _, hcompared⟩ := h
  exact hcompared.inside

theorem le_availAt {pos len : Nat} (h : pos + len ≤ c.srcLoaded) : len ≤ c.availAt pos := by
  unfold availAt
  split <;> omega

theorem Compared.toMatch {cur len room cand : Nat}
    (h : Compared c cur len cand) (hroom : len ≤ room) :
    Admissible c cur room (.match_ len (cur - cand)) := by
  have hlt := h.before
  refine ⟨by omega, by omega, hroom, ?_⟩
  rwa [show cur - (cur - cand) = cand by omega]

section Decide

variable {cur matchLen : Nat} {matchCandidate : Option Nat} {repBestLen : Nat}
  {repIdx : Option Nat} {room : Nat}

/-- The invariant of the nodes: a way of one token is admissible, and the first node
holds the state at the current position. -/
structure Ways (c : Compressor50) (cur room : Nat) (nodes : List ArrivalNode) : Prop where
  first : ∀ node ∈ nodes, node.fromOffset = 0 → Admissible c cur room node.token
  oldDist : (nodes.getD 0 c.unreached).oldDist = c.oldDist
  lastLen : (nodes.getD 0 c.unreached).lastLen = c.lastLength

variable {nodes : List ArrivalNode} {node : ArrivalNode} {hEff i : Nat}

theorem Ways.relax (h : Ways c cur room nodes) {j : Nat} (hj : 0 < j)
    (hnode : node.fromOffset = 0 → Admissible c cur room node.token) :
    Ways c cur room (c.relax nodes j node) := by
  unfold Compressor50.relax
  split
  · have hget : (nodes.set j node).getD 0 c.unreached = nodes.getD 0 c.unreached := by
      rw [getD_eq_getElem?_getD, List.getElem?_set_ne (by omega),
        getD_eq_getElem?_getD]
    constructor
    · intro x hx
      rcases mem_or_eq_of_mem_set hx with hmem | heq
      · exact h.first x hmem
      · rw [heq]
        exact hnode
    · rw [hget]
      exact h.oldDist
    · rw [hget]
      exact h.lastLen
  · exact h

section

variable (h : Ways c cur room nodes) {tokenLen cost lastLen : Nat} {token : Decision}
    {oldDist : List Nat} (hEffPos : 0 < hEff) (hlen : 0 < tokenLen)
include h hEffPos hlen

theorem Ways.storeCandidate (htoken : Admissible c cur room token) :
    Ways c cur room (c.storeCandidate hEff nodes token tokenLen cost oldDist lastLen) := by
  unfold Compressor50.storeCandidate
  split
  · exact h
  · exact h.relax (by omega) fun _ => htoken

theorem Ways.extendWay (htoken : i = 0 → Admissible c cur room token) :
    Ways c cur room (c.extendWay hEff i node nodes token tokenLen cost oldDist lastLen) := by
  unfold Compressor50.extendWay
  split
  · exact h
  · exact h.relax (by omega) htoken

end

theorem startNodes_ways (c : Compressor50) (cur room : Nat) :
    Ways c cur room ({ c.unreached with cost := 0 } :: List.replicate 16 c.unreached) := by
  constructor
  · intro node hnode _
    rcases mem_cons.mp hnode with heq | hmem
    · rw [heq]
      trivial
    · rw [eq_of_mem_replicate hmem]
      trivial
  · rfl
  · rfl

section

variable (h : Ways c cur room nodes)
include h

theorem Ways.extendRep {avail r : Nat} (hmin : 2 ≤ c.minMatch)
    (hreps : c.oldDist.length = 4) (hroom : room ≤ maxLzMatch + 3) (hEffPos : 0 < hEff)
    (havail : avail ≤ room) (hr : r < 4)
    (hnode : i = 0 → node.oldDist = c.oldDist ∧ node.lastLen = c.lastLength) :
    Ways c cur room (c.extendRep (cur + i) hEff avail i node nodes r) := by
  unfold Compressor50.extendRep
  dsimp only
  split
  · next hdist =>
    split
    · next hlen =>
      -- The measurement that both tokens stand on, at the current position.
      have hat : i = 0 → ∀ len, len = c.repLength (cur + i) (node.oldDist.getD r 0)
          (min avail (hEff - i)) → len ≤ room ∧ RepAt c cur r len := by
        intro hi len hlenEq
        have hbound : len ≤ room := by
          rw [hlenEq]
          exact le_trans (c.repLength_le _ _ _) (by omega)
        have hne : c.repLength (cur + i) (node.oldDist.getD r 0) (min avail (hEff - i)) ≠ 0 := by
          omega
        obtain ⟨hcompared, hpos, hreach⟩ := repLength_compared (by omega) hne
        subst hi
        rw [(hnode rfl).1] at hcompared hpos hreach hdist hlenEq
        refine ⟨hbound, c.oldDist.getD r 0, ?_, hdist.1, hpos, hreach, ?_⟩
        · rw [getD_eq_getElem _ _ (by omega), List.getElem?_eq_getElem]
        · rw [hlenEq]
          exact hcompared
      have hlast : Ways c cur room
          (if ¬ c.lastlenSuppressed ∧ r = 0 ∧ node.lastLen ≥ c.minMatch ∧
              c.repLength (cur + i) (node.oldDist.getD r 0) (min avail (hEff - i)) =
                node.lastLen then
            c.extendWay hEff i node nodes (.lastLen node.lastLen) node.lastLen
              c.prices.slot257Cost node.oldDist node.lastLen
          else nodes) := by
        split
        · next hcond =>
          obtain ⟨_, hzero, hlastLen, heq⟩ := hcond
          refine h.extendWay hEffPos (by omega) fun hi => ?_
          obtain ⟨hle, hrep⟩ := hat hi node.lastLen heq.symm
          rw [hzero] at hrep
          exact ⟨(hnode hi).2, by omega, hle, hrep⟩
        · exact h
      refine hlast.extendWay hEffPos (by omega) fun hi => ?_
      obtain ⟨hle, hrep⟩ := hat hi _ rfl
      exact ⟨hr, by omega, hle, hrep⟩
    · exact h
  · exact h

theorem Ways.extendMatch {pos avail : Nat} (hEffPos : 0 < hEff) (hi : i ≠ 0) :
    Ways c cur room (c.extendMatch pos hEff avail i node nodes) := by
  unfold Compressor50.extendMatch
  dsimp only
  split
  · split
    · exact h.extendWay hEffPos (by omega) fun hzero => absurd hzero hi
    · exact h
  · exact h

theorem Ways.propagate (hmin : 2 ≤ c.minMatch) (hreps : c.oldDist.length = 4)
    (hroom : room ≤ maxLzMatch + 3) (hEffPos : 0 < hEff) :
    Ways c cur room (c.propagate cur matchLen repBestLen room hEff nodes i) := by
  unfold Compressor50.propagate
  dsimp only
  split
  · exact h
  · have hnode : i = 0 → (nodes.getD i c.unreached).oldDist = c.oldDist ∧
        (nodes.getD i c.unreached).lastLen = c.lastLength := by
      intro hi
      rw [hi]
      exact ⟨h.oldDist, h.lastLen⟩
    generalize nodes.getD i c.unreached = node at hnode
    have hliteral : Ways c cur room
        (if min (c.availAt (cur + i)) room ≥ 1 then
          c.relax nodes (min (i + 1) hEff)
            ⟨node.cost + c.prices.litCost (c.byteAt (cur + i)).toNat, i, .literal, node.oldDist,
              node.lastLen⟩
        else nodes) := by
      split
      · exact h.relax (by omega) fun _ => (trivial : Admissible c cur room .literal)
      · exact h
    have hreps4 := List.foldlRecOn (List.range 4)
      (c.extendRep (cur + i) hEff (min (c.availAt (cur + i)) room) i node) hliteral
      fun _ hnodes r hr => hnodes.extendRep hmin hreps hroom hEffPos (Nat.min_le_right _ _)
        (mem_range.mp hr) hnode
    split
    · next hcond => exact hreps4.extendMatch hEffPos (by omega)
    · exact hreps4

theorem Ways.traceBack (fuel : Nat) :
    ∀ offset, Admissible c cur room (c.traceBack nodes fuel offset) := by
  induction fuel with
  | zero =>
    intro offset
    trivial
  | succ fuel ih =>
    intro offset
    unfold Compressor50.traceBack
    dsimp only
    split
    · trivial
    · split
      · next hfrom =>
        by_cases hlt : offset < nodes.length
        · rw [getD_eq_getElem _ _ hlt] at hfrom ⊢
          exact h.first _ (getElem_mem hlt) hfrom
        · rw [getD_eq_default _ _ (by omega)]
          trivial
      · exact ih _

end

variable (h : Candidates c cur matchLen matchCandidate repBestLen repIdx room)
include h

/-- The candidates are admissible as they stand: no bound shortens them. -/
theorem Candidates.repAdmissible {idx : Nat} (hidx : repIdx = some idx) (hlen : 2 ≤ repBestLen) :
    Admissible c cur room (.rep idx (min repBestLen (min (c.availAt cur) room))) := by
  obtain ⟨hlt, hrep⟩ := h.repFound idx hidx
  have hroom := h.repLen_le
  have havail := le_availAt hrep.inside
  rw [show min repBestLen (min (c.availAt cur) room) = repBestLen by omega]
  exact ⟨hlt, hlen, hroom, hrep⟩

theorem Candidates.lastLenAdmissible
    (hidx : repIdx = some 0) (hne : c.lastLength ≠ 0) (hlast : repBestLen = c.lastLength) :
    Admissible c cur room (.lastLen repBestLen) := by
  obtain ⟨_, hrep⟩ := h.repFound 0 hidx
  exact ⟨hlast, by omega, h.repLen_le, hrep⟩

theorem Candidates.matchAdmissible {cand : Nat}
    (hcand : matchCandidate = some cand) (hlen : 2 ≤ matchLen) :
    Admissible c cur room (.match_ (min matchLen (min (c.availAt cur) room)) (cur - cand)) := by
  obtain ⟨cand', hcand', hcompared⟩ := h.found (by dsimp only; omega)
  rw [hcand] at hcand'
  cases hcand'
  exact (hcompared.shorten (Nat.min_le_left _ _)).toMatch
    (le_trans (Nat.min_le_left _ _) h.matchLen_le)

theorem firstTokens_ways (hEffPos : 0 < hEff) :
    Ways c cur room (c.firstTokens cur matchLen matchCandidate repBestLen repIdx
      (min (c.availAt cur) room) hEff) := by
  have hmin := h.minMatch
  have hrep : ∀ nodes, Ways c cur room nodes →
      Ways c cur room (c.storeRep repBestLen repIdx (min (c.availAt cur) room) hEff nodes) := by
    intro nodes hnodes
    unfold storeRep
    split
    · next idx =>
      split
      · next hlen =>
        have hadmissible := h.repAdmissible rfl (le_trans hmin hlen)
        exact hnodes.storeCandidate hEffPos (lt_of_lt_of_le Nat.two_pos hadmissible.2.1)
          hadmissible
      · exact hnodes
    · exact hnodes
  have hlast : ∀ nodes, Ways c cur room nodes →
      Ways c cur room (c.storeLastLen repBestLen repIdx hEff nodes) := by
    intro nodes hnodes
    unfold storeLastLen
    split
    · next hcond =>
      obtain ⟨_, hne, heq, hidx⟩ := hcond
      exact hnodes.storeCandidate hEffPos (by omega) (h.lastLenAdmissible hidx hne heq)
    · exact hnodes
  have hmatch : ∀ nodes, Ways c cur room nodes →
      Ways c cur room
        (c.storeMatch cur matchLen matchCandidate (min (c.availAt cur) room) hEff nodes) := by
    intro nodes hnodes
    unfold storeMatch
    split
    · next cand =>
      dsimp only
      split
      · next hlen =>
        exact hnodes.storeCandidate hEffPos (by omega)
          (h.matchAdmissible rfl (le_trans hmin hlen.1))
      · exact hnodes
    · exact hnodes
  exact hmatch _ (hlast _ (hrep _ ((startNodes_ways c cur room).storeCandidate hEffPos
    Nat.one_pos trivial)))

theorem searchHorizon_admissible
    (hroom : room ≤ maxLzMatch + 3) (havail : min (c.availAt cur) room ≠ 0) :
    Admissible c cur room
      (c.searchHorizon cur matchLen matchCandidate repBestLen repIdx room) := by
  have hEffPos : 0 < min 16 (min (c.availAt cur) room) := by omega
  have hsearch := List.foldlRecOn (List.range (min 16 (min (c.availAt cur) room))) (c.propagate
    cur matchLen repBestLen room (min 16 (min (c.availAt cur) room))) (firstTokens_ways h hEffPos)
    fun _ hnodes _ _ => hnodes.propagate h.minMatch h.reps hroom hEffPos
  unfold searchHorizon
  dsimp only
  split
  · trivial
  · exact hsearch.traceBack _ _

theorem longRep_admissible {decision : Decision}
    (hdecision : c.longRep matchLen repBestLen repIdx (min (c.availAt cur) room) = some decision) :
    Admissible c cur room decision := by
  have hnice := h.niceLen
  unfold longRep at hdecision
  split at hdecision
  · split_ifs at hdecision with hlong hlast
    · cases hdecision
      obtain ⟨_, hzero, hne, heq⟩ := hlast
      subst hzero
      have hadmissible := h.lastLenAdmissible rfl hne heq
      have havail := le_availAt hadmissible.2.2.2.inside
      have hroom := h.repLen_le
      rwa [show min repBestLen (min (c.availAt cur) room) = repBestLen by omega]
    · cases hdecision
      exact h.repAdmissible rfl (by omega)
  · cases hdecision

theorem longMatch_admissible {decision : Decision}
    (hdecision : c.longMatch cur matchLen matchCandidate (min (c.availAt cur) room)
      = some decision) :
    Admissible c cur room decision := by
  have hnice := h.niceLen
  unfold longMatch at hdecision
  split at hdecision
  · split_ifs at hdecision with hlong
    cases hdecision
    exact h.matchAdmissible rfl (by omega)
  · cases hdecision

/-- **The decision is a literal or a compared token that fits.** -/
theorem evaluateForwardArrival_admissible (hroom : room ≤ maxLzMatch + 3) :
    Admissible c cur room
      (c.evaluateForwardArrival cur matchLen matchCandidate repBestLen repIdx room) := by
  unfold evaluateForwardArrival
  dsimp only
  split
  · trivial
  · next havail =>
    split
    · next decision hdecision => exact longRep_admissible h hdecision
    · split
      · next decision hdecision => exact longMatch_admissible h hdecision
      · exact searchHorizon_admissible h hroom havail

end Decide

end Compressor50

end OpenRar.Compress
