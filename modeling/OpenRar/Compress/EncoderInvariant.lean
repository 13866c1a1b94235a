import OpenRar.Compress.EncoderBlocks
import OpenRar.Compress.ProcessAvailable

/-!
# The invariant of the encoder

Between two passes of its loop the encoder has collected a run of tokens that leads,
in the sense of the token semantics, from the start of the current block to its
current position.  The bytes of its buffer are those of the member, seen through a
fixed shift of positions: a worker that starts in the middle of a member counts its
positions from the start of its seed.

Every token that the loop emits extends the run.  For a literal this is the byte at
the current position; for a copy it is the comparison that the search made.
-/

namespace OpenRar.Compress

open OpenRar.Core RingHistory List

namespace Compressor50

/-! ## What emitting a token leaves alone -/

variable (c : Compressor50)

/-- The part of the state that no token changes: input, window, parameters, filter
and output. -/
def frame : Compressor50 :=
  { c with
    failCount := 0
    head := fun _ => 0
    prev := fun _ => 0
    tokens := []
    freq := initFreq
    oldDist := []
    lastLength := 0
    inputSinceBlock := 0
    cur := 0
    unhashedPos := 0 }

/-- Two states with the same tokens, counts, distances and position. -/
structure SameTokens (c c' : Compressor50) : Prop where
  frame : c'.frame = c.frame
  tokens : c'.tokens = c.tokens
  freq : c'.freq = c.freq
  oldDist : c'.oldDist = c.oldDist
  lastLength : c'.lastLength = c.lastLength
  cur : c'.cur = c.cur

theorem SameTokens.refl : SameTokens c c := ⟨rfl, rfl, rfl, rfl, rfl, rfl⟩

theorem SameTokens.trans {c c' c'' : Compressor50} (h : SameTokens c c')
    (h' : SameTokens c' c'') : SameTokens c c'' :=
  ⟨h'.frame.trans h.frame, h'.tokens.trans h.tokens, h'.freq.trans h.freq,
    h'.oldDist.trans h.oldDist, h'.lastLength.trans h.lastLength, h'.cur.trans h.cur⟩

theorem sameTokens_insertPosition (pos : Nat) : SameTokens c (c.insertPosition pos) := by
  unfold insertPosition
  split
  · exact .refl c
  · exact ⟨rfl, rfl, rfl, rfl, rfl, rfl⟩

theorem sameTokens_hashRange (start stop : Nat) : SameTokens c (c.hashRange start stop) := by
  refine List.foldlRecOn _ _ (.refl c) fun c' hc' pos _ => ?_
  split
  · exact hc'.trans (sameTokens_insertPosition c' pos)
  · exact hc'

theorem sameTokens_bumpFail : SameTokens c c.bumpFail :=
  ⟨rfl, rfl, rfl, rfl, rfl, rfl⟩

theorem sameTokens_clearFail (len : Nat) : SameTokens c (c.clearFail len) := by
  unfold clearFail
  split
  · exact ⟨rfl, rfl, rfl, rfl, rfl, rfl⟩
  · exact .refl c

/-- One token was added and its bytes were passed over. -/
structure Emitted (tok : Token) (len : Nat) (reps : List Nat) (last : Nat)
    (c' : Compressor50) : Prop where
  frame : c'.frame = c.frame
  tokens : c'.tokens = c.tokens ++ [tok]
  ledger : Ledger c.freq c.tokens → Ledger c'.freq c'.tokens
  oldDist : c'.oldDist = reps
  lastLength : c'.lastLength = last
  cur : c'.cur = c.cur + len

variable {c1 : Compressor50} {tok : Token} {len last : Nat} {reps : List Nat}

theorem Emitted.of_same {c c' : Compressor50} (hsame : SameTokens c c1)
    (h : Emitted c1 tok len reps last c') :
    Emitted c tok len reps last c' where
  frame := h.frame.trans hsame.frame
  tokens := by rw [h.tokens, hsame.tokens]
  ledger := fun hledger => h.ledger (by rw [hsame.freq, hsame.tokens]; exact hledger)
  oldDist := h.oldDist
  lastLength := h.lastLength
  cur := by rw [h.cur, hsame.cur]

theorem emitted_tailLiteral :
    Emitted c (.literal (c.byteAt c.cur)) 1 c.oldDist c.lastLength c.tailLiteral :=
  ⟨rfl, rfl, fun h => addLiteral_ledger h _, rfl, rfl, rfl⟩

theorem emitted_emitLiteral :
    Emitted c (.literal (c.byteAt c.cur)) 1 c.oldDist c.lastLength c.emitLiteral := by
  have hsame := sameTokens_insertPosition (c.addLiteral (c.byteAt c.cur)) c.cur
  constructor
  · exact hsame.frame
  · exact hsame.tokens
  · intro h
    have hledger := addLiteral_ledger h (c.byteAt c.cur)
    rw [← hsame.freq, ← hsame.tokens] at hledger
    exact hledger
  · exact hsame.oldDist
  · exact hsame.lastLength
  · show ((c.addLiteral (c.byteAt c.cur)).insertPosition c.cur).cur + 1 = c.cur + 1
    rw [hsame.cur]
    rfl

/-- The state after a token was added, before its bytes are passed over. -/
theorem Emitted.coverCopy {c : Compressor50} (h : Emitted c tok 0 reps last c1)
    (hinside : c.cur + len ≤ c.srcLoaded) :
    Emitted c tok len reps last (c1.coverCopy len) := by
  have hsame := sameTokens_hashRange c1 c1.cur (min (c1.cur + len) c1.srcLoaded)
  have hdata : c1.data = c.data := (congrArg data h.frame :)
  have hcur := h.cur
  constructor
  · exact hsame.frame.trans h.frame
  · exact hsame.tokens.trans h.tokens
  · intro hledger
    have hnew := h.ledger hledger
    rw [← hsame.freq, ← hsame.tokens] at hnew
    exact hnew
  · exact hsame.oldDist.trans h.oldDist
  · exact hsame.lastLength.trans h.lastLength
  · show min (c1.cur + len) c1.srcLoaded = c.cur + len
    rw [srcLoaded, hdata, ← srcLoaded]
    omega

/-! ## The invariant -/

/-- The mode of the token semantics in which the encoder is. -/
def mode : Mode :=
  if c.activeFilter = .none then .plain else .region (c.filterEmittedUntil - c.cur)

/-- The buffer is final up to here: a chunk that is transformed in the buffer is final
once its filter token is out. -/
def settled : Nat :=
  if c.activeFilter = .none ∨ c.externalBuf ∨ c.filterPretransformed then c.srcLoaded
  else c.filterEmittedUntil

/-- The state of the token semantics in which the encoder is. -/
def lzState (m : Member) (shift : Nat) (c : Compressor50) : LzState where
  pos := c.cur + shift - m.prior.length
  reps := c.oldDist
  lastLen := c.lastLength
  mode := c.mode

/-- The parameters and the buffer fit the member: position `p` of the buffer is
position `p + shift` of the history. -/
structure Grounded (m : Member) (win : Reach) (shift : Nat) (c : Compressor50) : Prop where
  minMatch : 2 ≤ c.minMatch
  niceLen : 2 ≤ c.niceLen
  maxDist_win : c.maxDist ≤ win.dist
  maxDist_le : c.maxDist ≤ 2 ^ 32
  settled_le : c.settled ≤ c.srcLoaded
  inside : c.srcLoaded + shift ≤ m.prior.length + m.enc.length
  bytes : ∀ p < c.settled, c.data[p]? = (m.prior ++ m.enc)[p + shift]?

/-- The invariant between tokens: the collected tokens lead from the start of the
block to the current position. -/
structure Collecting (m : Member) (win : Reach) (shift : Nat) (st : LzState) (c : Compressor50) :
    Prop
    extends Grounded m win shift c where
  reps : c.oldDist.length = 4
  base_le : c.posBase ≤ c.cur
  cur_le : c.cur ≤ c.srcLoaded
  start : m.prior.length ≤ c.cur + shift
  region : c.activeFilter ≠ .none → c.cur ≤ c.filterEmittedUntil
  ledger : Ledger c.freq c.tokens
  chain : Chain m win st c.tokens (c.lzState m shift)

variable {m : Member} {win : Reach} {shift : Nat} {st : LzState} {c c' : Compressor50}

theorem Grounded.of_frame (h : Grounded m win shift c) (hframe : c'.frame = c.frame) :
    Grounded m win shift c' := by
  -- The statement is about the frame only.
  have hframed : Grounded m win shift c.frame := { h with }
  rw [← hframe] at hframed
  exact { hframed with }

/-- The input and the region of a state are in its frame. -/
theorem fields_of_frame (hframe : c'.frame = c.frame) :
    c'.data = c.data ∧ c'.posBase = c.posBase ∧ c'.activeFilter = c.activeFilter ∧
      c'.filterEmittedUntil = c.filterEmittedUntil :=
  ⟨(congrArg data hframe :), (congrArg posBase hframe :), (congrArg activeFilter hframe :),
    (congrArg filterEmittedUntil hframe :)⟩

theorem mode_advance (hframe : c'.frame = c.frame) (hcur : c'.cur = c.cur + len)
    (hroom : c.activeFilter ≠ .none → c.cur + len ≤ c.filterEmittedUntil) :
    c.mode.advance len = some c'.mode := by
  obtain ⟨-, -, hfilter, huntil⟩ := fields_of_frame hframe
  unfold mode
  rw [hfilter, huntil, hcur]
  split
  · rfl
  · next hactive =>
    have := hroom hactive
    rw [Mode.advance, if_pos (by omega), Nat.sub_sub]

/-- **A token that was added extends the run.** -/
theorem Collecting.emitted (h : Collecting m win shift st c) (he : Emitted c tok len reps last c')
    (hreps : reps.length = 4) (hcur : c.cur + len ≤ c.srcLoaded)
    (hroom : c.activeFilter ≠ .none → c.cur + len ≤ c.filterEmittedUntil)
    (hstep : Step m win (c.lzState m shift) tok
      ⟨c.cur + shift - m.prior.length + len, reps, last, c'.mode⟩) :
    Collecting m win shift st c' := by
  obtain ⟨hdata, hbase, hfilter, huntil⟩ := fields_of_frame he.frame
  have hbase_le := h.base_le
  have hstart := h.start
  refine ⟨h.toGrounded.of_frame he.frame, ?_, ?_, ?_, ?_, ?_, he.ledger h.ledger, ?_⟩
  · rw [he.oldDist]
    exact hreps
  · rw [hbase, he.cur]
    omega
  · rw [srcLoaded, hdata, he.cur]
    exact hcur
  · rw [he.cur]
    omega
  · rw [hfilter, huntil, he.cur]
    exact hroom
  · rw [he.tokens, lzState, he.oldDist, he.lastLength, he.cur,
      show c.cur + len + shift - m.prior.length = c.cur + shift - m.prior.length + len by omega]
    exact h.chain.snoc hstep

variable {cand index : Nat}

/-- A comparison in the buffer is a copy in the member. -/
theorem Collecting.copies (h : Collecting m win shift st c)
    (hcompared : Compared c c.cur len cand) (hlen : 0 < len) (hsettled : c.cur + len ≤ c.settled) :
    Copies m win (c.cur + shift - m.prior.length) (c.cur - cand) len := by
  have hstart := h.start
  have hinside := h.inside
  have hbefore := hcompared.before
  have hnear := hcompared.near
  have hfit := hcompared.inside
  have hwin := h.maxDist_win
  constructor
  · omega
  · omega
  · omega
  · exact hlen
  · exact hcompared.bound
  · omega
  · -- Both places of the comparison are final, so the bytes are those of the member.
    set pos := c.cur + shift - m.prior.length
    have hall : m.prior ++ m.enc.take pos ++ (m.enc.drop pos).take len
        = (m.prior ++ m.enc).take (c.cur + shift + len) := by
      rw [append_assoc, ← take_add, take_append,
        take_of_length_le (l := m.prior) (by omega),
        show c.cur + shift + len - m.prior.length = pos + len by omega]
    have hhist : (m.prior ++ m.enc.take pos).length = c.cur + shift := by
      rw [length_append, length_take]
      omega
    intro i hi
    have hi' : i < len := by
      rw [length_take] at hi
      omega
    have hagree := hcompared.agree i hi'
    rw [hall, hhist, List.getElem?_take_of_lt (by omega), List.getElem?_take_of_lt (by omega),
      show c.cur + shift + i = c.cur + i + shift by omega,
      show c.cur + i + shift - (c.cur - cand) = cand + i + shift by omega,
      ← h.bytes (c.cur + i) (by omega), ← h.bytes (cand + i) (by omega)]
    have hloaded : c.srcLoaded = c.data.length := rfl
    rw [getD_eq_getElem _ _ (by omega), getD_eq_getElem _ _ (by omega)] at hagree
    rw [List.getElem?_eq_getElem (by omega), List.getElem?_eq_getElem (by omega), hagree]

/-! ## Tokens extend the run -/

/-- The next `len` bytes are loaded and inside the current region. -/
structure Room (c : Compressor50) (len : Nat) : Prop where
  loaded : c.cur + len ≤ c.srcLoaded
  region : c.activeFilter ≠ .none → c.cur + len ≤ c.filterEmittedUntil

theorem Room.settled (h : Room c len) : c.cur + len ≤ c.settled := by
  unfold Compressor50.settled
  split
  · exact h.loaded
  · next hraw => exact h.region fun hnone => hraw (Or.inl hnone)

/-- What a token does to the state of the encoder. -/
structure Progress (m : Member) (win : Reach) (shift : Nat) (st : LzState) (c c' : Compressor50) :
    Prop where
  collecting : Collecting m win shift st c'
  frame : c'.frame = c.frame
  lt : c.cur < c'.cur
  le : c'.cur ≤ c.cur + (maxLzMatch + 3)
  count : c'.tokens.length = c.tokens.length + 1

theorem Collecting.progress (h : Collecting m win shift st c) (he : Emitted c tok len reps last c')
    (hreps : reps.length = 4) (hroom : Room c len) (hpos : 0 < len) (hlen : len ≤ maxLzMatch + 3)
    (hstep : ∀ mode, c.mode.advance len = some mode → Step m win (c.lzState m shift) tok
      ⟨c.cur + shift - m.prior.length + len, reps, last, mode⟩) :
    Progress m win shift st c c' where
  collecting := h.emitted he hreps hroom.loaded hroom.region
    (hstep _ (mode_advance he.frame he.cur hroom.region))
  frame := he.frame
  lt := by
    rw [he.cur]
    omega
  le := by
    rw [he.cur]
    omega
  count := by rw [he.tokens, length_append, length_singleton]

theorem Collecting.literal (h : Collecting m win shift st c) (hroom : Room c 1)
    (he : Emitted c (.literal (c.byteAt c.cur)) 1 c.oldDist c.lastLength c') :
    Progress m win shift st c c' := by
  refine h.progress he h.reps hroom Nat.one_pos (by decide) fun mode hmode => ?_
  have hlt : c.cur < c.data.length := hroom.loaded
  have hbyte := h.bytes c.cur hroom.settled
  rw [List.getElem?_append_right h.start, List.getElem?_eq_getElem hlt] at hbyte
  refine .literal ?_ hmode
  rw [byteAt, getD_eq_getElem _ _ hlt]
  exact hbyte.symm

theorem Collecting.emitLiteral (h : Collecting m win shift st c) (hsame : SameTokens c c1)
    (hroom : Room c 1) : Progress m win shift st c c1.emitLiteral := by
  have hdata : c1.data = c.data := (congrArg data hsame.frame :)
  have he := (emitted_emitLiteral c1).of_same hsame
  rw [hsame.cur, hsame.oldDist, hsame.lastLength, byteAt, hdata] at he
  exact h.literal hroom he

theorem emitted_addRep (c : Compressor50) (hindex : index < 4) (hslot : (lengthToSlot len).1 < 44) :
    Emitted c (.rep index (lengthToSlot len).1 (lengthToSlot len).2.1) 0
      (c.oldDist.getD index 0 :: c.oldDist.eraseIdx index) len (c.addRep index len) :=
  ⟨rfl, rfl, fun h => addRep_ledger h hindex hslot, rfl, rfl, rfl⟩

/-- A repeat match. -/
theorem Collecting.rep (h : Collecting m win shift st c) (hsame : SameTokens c c1)
    (hindex : index < 4) (hmin : 2 ≤ len) (hmax : len ≤ maxLzMatch)
    (hrep : RepAt c c.cur index len) (hroom : Room c len) :
    Progress m win shift st c ((c1.addRep index len).coverCopy len) := by
  obtain ⟨distance, hdistance, hset, hdistpos, hreach, hcompared⟩ := hrep
  obtain ⟨hslot, hextra, hlength⟩ := lengthToSlot_spec hmin hmax
  have he := ((emitted_addRep c1 hindex hslot).of_same hsame).coverCopy hroom.loaded
  have hget : c.oldDist.getD index 0 = distance := by
    rw [getD_eq_getElem?_getD, hdistance]
    rfl
  rw [hsame.oldDist, hget] at he
  have hcopy := h.copies hcompared (by omega) hroom.settled
  rw [show c.cur - (c.cur - distance) = distance by omega] at hcopy
  refine h.progress he ?_ hroom (by omega) (by omega) fun mode hmode => ?_
  · rw [length_cons, length_eraseIdx, h.reps, if_pos hindex]
  · exact .rep hindex hslot hextra hdistance hset hlength hcopy hmode

theorem Collecting.lastLen (h : Collecting m win shift st c) (hsame : SameTokens c c1)
    (hlast : c.lastLength ≠ 0) (hmax : c.lastLength ≤ maxLzMatch + 3)
    (hrep : RepAt c c.cur 0 c.lastLength) (hroom : Room c c.lastLength) :
    Progress m win shift st c (c1.addLastLen.coverCopy c.lastLength) := by
  obtain ⟨distance, hdistance, hset, hdistpos, hreach, hcompared⟩ := hrep
  have hadd : Emitted c1 .lastLen 0 c1.oldDist c1.lastLength c1.addLastLen :=
    ⟨rfl, rfl, fun h => addLastLen_ledger h, rfl, rfl, rfl⟩
  have he := (hadd.of_same hsame).coverCopy hroom.loaded
  rw [hsame.oldDist, hsame.lastLength] at he
  have hcopy := h.copies hcompared (by omega) hroom.settled
  rw [show c.cur - (c.cur - distance) = distance by omega] at hcopy
  refine h.progress he h.reps hroom (by omega) hmax fun mode hmode => ?_
  exact .lastLen hlast hdistance hset hcopy hmode

theorem lengthIncrement_eq (distance : Nat) :
    lengthIncrement distance = Decompressor50.lengthBonus distance := by
  unfold lengthIncrement Decompressor50.lengthBonus
  split_ifs <;> omega

theorem lengthIncrement_le (distance : Nat) : lengthIncrement distance ≤ 3 := by
  unfold lengthIncrement
  split_ifs <;> omega

/-- The bytes that a fresh match covers, zero if it cannot be coded. -/
theorem addMatch_length (c : Compressor50) (len distance : Nat) :
    (c.addMatch len distance).2 =
      if len < lengthIncrement distance + 2 then 0
      else min (len - lengthIncrement distance) maxLzMatch + lengthIncrement distance := by
  unfold addMatch
  dsimp only
  split <;> rfl

/-- A fresh match that can be coded. -/
theorem Collecting.match_ (h : Collecting m win shift st c) (hsame : SameTokens c c1)
    (hcompared : Compared c c.cur len cand)
    (hmin : lengthIncrement (c.cur - cand) + 2 ≤ len) (hroom : Room c len) :
    Progress m win shift st c
      ((c1.addMatch len (c.cur - cand)).1.coverCopy (c1.addMatch len (c.cur - cand)).2) := by
  have hbefore := hcompared.before
  have hnear := hcompared.near
  have hmaxDist := h.maxDist_le
  have hinc := lengthIncrement_le (c.cur - cand)
  set distance := c.cur - cand
  set base := min (len - lengthIncrement distance) maxLzMatch
  have hmaxLz : 2 ≤ maxLzMatch := by decide
  obtain ⟨hslot, hextra, hlength⟩ := @lengthToSlot_spec base (by omega) (by omega)
  obtain ⟨hdistExtra, hdistBits, hdist⟩ := @distanceToSlot_spec distance (by omega)
  have hdistSlot := @distanceToSlot_lt distance (by omega)
  have hcovered : (c1.addMatch len distance).2 = base + lengthIncrement distance := by
    rw [addMatch_length, if_neg (by omega)]
  have hadd : Emitted c1
      (.match_ (lengthToSlot base).1 (lengthToSlot base).2.1 (distanceToSlot distance).1
        (distanceToSlot distance).2.1) 0
      (distance :: c1.oldDist.take 3) (base + lengthIncrement distance)
      (c1.addMatch len distance).1 := by
    have hledger : Ledger c1.freq c1.tokens →
        Ledger (c1.addMatch len distance).1.freq (c1.addMatch len distance).1.tokens :=
      fun hl => addMatch_ledger hl hslot hdistSlot hdistBits
    unfold addMatch at hledger ⊢
    rw [if_neg (by omega)] at hledger ⊢
    exact ⟨rfl, rfl, hledger, rfl, rfl, rfl⟩
  have hshort : base + lengthIncrement distance ≤ len := by omega
  have hroom' : Room c (base + lengthIncrement distance) :=
    ⟨le_trans (by omega) hroom.loaded, fun hactive => le_trans (by omega) (hroom.region hactive)⟩
  have he := (hadd.of_same hsame).coverCopy hroom'.loaded
  rw [hsame.oldDist] at he
  rw [hcovered]
  have hcopy := h.copies (hcompared.shorten hshort) (by omega) hroom'.settled
  refine h.progress he ?_ hroom' (by omega) (by omega) fun mode hmode => ?_
  · rw [length_cons, length_take, h.reps]
    rfl
  · exact .match_ hslot hextra hdistSlot hdistExtra hdist
      (by rw [hlength, ← lengthIncrement_eq]) hcopy hmode

end Compressor50

end OpenRar.Compress
