import OpenRar.Compress.FlushHistory
import OpenRar.Foundation.OverlapCopy

/-!
# The window as it is allocated

The ring window is not allocated at once: only `cap` slots exist, and every write makes
room first.  Here each access of the engine is checked against the slots that exist, and
an access beyond them is a failure.  The checked engine never fails: it does what the
engine without a capacity does, so its ring is the tail of the decoded bytes.

A match that reaches before the first byte since the last reset stands for zeros, as many
as it is long, also for the part that would reach decoded bytes again.
-/

namespace OpenRar.Compress

open RingHistory List Option

namespace ApplyEngine

/-! ## Checked accesses -/

/-- `memset` on the slots that exist. -/
def checkedSet (cap : Nat) (window : Nat → UInt8) (dst : Nat) (value : UInt8) (count : Nat) :
    Option (Nat → UInt8) :=
  if count = 0 ∨ dst + count ≤ cap then some (setBlock window dst value count) else none

/-- `memcpy` and `memmove` on the slots that exist. -/
def checkedMove (cap : Nat) (window : Nat → UInt8) (dst src count : Nat) :
    Option (Nat → UInt8) :=
  if count = 0 ∨ (dst + count ≤ cap ∧ src + count ≤ cap) then some (moveBlock window dst src count)
  else none

/-- A read of one slot that exists. -/
def checkedGet (cap : Nat) (window : Nat → UInt8) (slot : Nat) : Option UInt8 :=
  if slot < cap then some (window slot) else none

/-- `zeroRun` with its accesses checked. -/
def zeroRunChecked (cap : Nat) : Nat → Nat → ApplyEngine → Option ApplyEngine
  | 0, _, engine => some engine
  | fuel + 1, rem, engine =>
    if rem = 0 then some engine
    else do
      let chunk := min rem (engine.winSize - engine.winPos)
      let window ← checkedSet cap engine.window engine.winPos 0 chunk
      zeroRunChecked cap fuel (rem - chunk) ({ engine with window := window }.advance chunk)

/-- `doubleRun` with its accesses checked. -/
def doubleRunChecked (cap winSize winPos : Nat) :
    Nat → Nat → Nat → (Nat → UInt8) → Option ((Nat → UInt8) × Nat)
  | 0, done, _, window => some (window, done)
  | fuel + 1, done, remaining, window =>
    let step := min (min done remaining) (winSize - (winPos + done))
    if step = 0 then some (window, done)
    else do
      let window ← checkedMove cap window (winPos + done) winPos step
      doubleRunChecked cap winSize winPos fuel (done + step) (remaining - step) window

/-- `copyChunk` with its accesses checked. -/
def copyChunkChecked (cap : Nat) (engine : ApplyEngine) (distance src length : Nat) :
    Option ((Nat → UInt8) × Nat) := do
  let chunk := min (min (min length (engine.winSize - engine.winPos)) (engine.winSize - src))
    (slotGap src engine.winPos)
  let window ← checkedMove cap engine.window engine.winPos src chunk
  if chunk < length ∧ chunk ≥ distance then
    doubleRunChecked cap engine.winSize engine.winPos length chunk (length - chunk) window
  else some (window, chunk)

/-- `chunkLoop` with its accesses checked. -/
def chunkLoopChecked (cap distance : Nat) : Nat → Nat → Nat → ApplyEngine → Option ApplyEngine
  | 0, _, _, engine => some engine
  | fuel + 1, src, length, engine =>
    if length = 0 then some engine
    else do
      let result ← engine.copyChunkChecked cap distance src length
      chunkLoopChecked cap distance fuel (engine.wrapUp (src + result.2)) (length - result.2)
        ({ engine with window := result.1 }.advance result.2)

/-- `copyMatch` with its accesses checked, behind the reservation. -/
def copyMatchChecked (cap : Nat) (engine : ApplyEngine) (distance length : Nat) :
    Option ApplyEngine :=
  let src := engine.wrapUp (engine.winPos + engine.winSize - distance)
  if distance > engine.winPos ∧ ¬ engine.firstWinDone then zeroRunChecked cap length length engine
  else if src = engine.winPos then some (engine.advance length)
  else if distance = 1 ∧ engine.winPos + length ≤ engine.winSize then do
    let value ← checkedGet cap engine.window src
    let window ← checkedSet cap engine.window engine.winPos value length
    some ({ engine with window := window }.advance length)
  else if src + length ≤ engine.winSize ∧ engine.winPos + length ≤ engine.winSize
      ∧ slotGap src engine.winPos ≥ length then do
    let window ← checkedMove cap engine.window engine.winPos src length
    some ({ engine with window := window }.advance length)
  else chunkLoopChecked cap distance length src length engine

/-! ## Matches that reach before the output -/

variable {engine : ApplyEngine} {hist : List UInt8}

theorem Holding.writeZeros (h : Holding engine hist) {count : Nat} (hpos : 0 < count)
    (hfit : engine.winPos + count ≤ engine.winSize) :
    Holding ({ engine with window := setBlock engine.window engine.winPos 0 count }.advance count)
      (hist ++ List.replicate count 0) := by
  have hlen : (List.replicate count (0 : UInt8)).length = count := length_replicate
  have hnext := h.write (setBlock engine.window engine.winPos 0 count) (List.replicate count 0)
    (by rwa [hlen]) (by rwa [hlen])
    (by
      intro i hi
      rw [hlen] at hi
      rw [setBlock_inside _ _ hi, List.getElem?_replicate_of_lt hi])
    (by
      intro j hj
      rw [hlen] at hj
      exact setBlock_outside _ _ hj)
  rwa [hlen] at hnext

theorem zeroRun_holding (fuel rem : Nat) (h : Holding engine hist) (hfuel : rem ≤ fuel) :
    Holding (zeroRun fuel rem engine) (hist ++ List.replicate rem 0) := by
  induction fuel generalizing engine hist rem with
  | zero =>
    have hzero : rem = 0 := by omega
    subst hzero
    simpa [zeroRun] using h
  | succ fuel ih =>
    rw [zeroRun]
    by_cases hzero : rem = 0
    · subst hzero
      simpa using h
    · rw [if_neg hzero]
      have hlt := h.pos_lt
      generalize hchunk : min rem (engine.winSize - engine.winPos) = chunk
      have hnext := h.writeZeros (show 0 < chunk by omega) (by omega)
      have hrun := ih (rem - chunk) hnext (by omega)
      rw [append_assoc, replicate_append_replicate,
        show chunk + (rem - chunk) = rem by omega] at hrun
      exact hrun

/-- Bytes that a copy from within the history writes. -/
theorem exists_isCopy {distance : Nat} (hpos : 0 < distance) (hreach : distance ≤ hist.length)
    (count : Nat) :
    ∃ bytes : List UInt8, bytes.length = count ∧ IsCopy distance hist bytes := by
  induction count with
  | zero => exact ⟨[], rfl, fun i hi => absurd hi (Nat.not_lt_zero i)⟩
  | succ count ih =>
    obtain ⟨bytes, hlen, hcopy⟩ := ih
    have hin : hist.length + count - distance < (hist ++ bytes).length := by
      rw [length_append]
      omega
    refine ⟨bytes ++ [(hist ++ bytes)[hist.length + count - distance]], by simp [hlen], ?_⟩
    intro i hi
    rw [← append_assoc]
    rw [length_append, length_singleton] at hi
    by_cases hlast : i = bytes.length
    · subst hlast
      rw [List.getElem?_append_right (by rw [length_append]), length_append,
        Nat.sub_self, List.getElem?_append_left (by rw [length_append]; omega), hlen]
      exact (List.getElem?_eq_getElem hin).symm
    · have hold : ∀ k < hist.length + bytes.length,
          (hist ++ bytes ++ [(hist ++ bytes)[hist.length + count - distance]])[k]?
            = (hist ++ bytes)[k]? := by
        intro k hk
        rw [List.getElem?_append_left (by rwa [length_append])]
      rw [hold _ (by omega), hold _ (by omega)]
      exact hcopy i (by omega)

/-- Nothing was written there yet: zeros. -/
theorem Holding.copyMatch_zero (h : Holding engine hist) {distance : Nat}
    (hdist : distance ≤ engine.winSize) (hbefore : hist.length < distance)
    (length : Nat) :
    Holding (engine.copyMatch distance length) (hist ++ List.replicate length 0) := by
  have hposition : engine.winPos = hist.length := by
    rw [h.pos, Nat.mod_eq_of_lt (by omega)]
  have hfresh : ¬ engine.firstWinDone = true := by
    rw [h.done, decide_eq_true_eq]
    omega
  unfold ApplyEngine.copyMatch
  rw [if_neg (by omega)]
  rw [if_pos ⟨by omega, hfresh⟩]
  exact zeroRun_holding _ _ h le_rfl

end ApplyEngine

/-! ## The capacity -/

/-- The engine and the slots that exist. -/
structure GrowingWindow where
  engine : ApplyEngine
  cap : Nat

namespace GrowingWindow

open ApplyEngine

/-- `INITIAL_WINDOW` -/
def initialWindow : Nat := 256 * 1024

/-- `init` and `ensure_window_alloc`. -/
def alloc (winSize : Nat) : GrowingWindow where
  engine := init winSize
  cap := min (init winSize).winSize initialWindow

variable (w : GrowingWindow)

/-- `grow`: make room for `n` slots behind the write position, at least doubling. -/
def grow (n : Nat) : GrowingWindow :=
  if w.cap = w.engine.winSize then w
  else
    let need :=
      if n ≥ w.engine.winSize - w.engine.winPos then w.engine.winSize else w.engine.winPos + n
    if need ≤ w.cap then w
    else
      let next := if w.cap > w.engine.winSize / 2 then w.engine.winSize else max (w.cap * 2) need
      { w with cap := min next w.engine.winSize }

/-- `reserve` -/
def reserve (n : Nat) : GrowingWindow :=
  if w.cap = w.engine.winSize ∨ n ≤ w.cap - w.engine.winPos then w else w.grow n

/-- `reset_window`: the capacity is kept. -/
def resetWindow : GrowingWindow :=
  { w with engine := w.engine.resetWindow }

/-- `write_literal` -/
def writeLiteral (slot : Nat) : Option GrowingWindow := do
  let w := if w.engine.winPos ≥ w.cap then w.grow 1 else w
  let window ← checkedSet w.cap w.engine.window w.engine.winPos (UInt8.ofNat slot) 1
  some { w with engine := { w.engine with window := window }.advance 1 }

/-- `copy_match` -/
def copyMatch (distance length : Nat) : Option GrowingWindow :=
  if distance = 0 ∨ distance > w.engine.winSize then some w
  else do
    let w := w.reserve length
    let engine ← w.engine.copyMatchChecked w.cap distance length
    some { w with engine := engine }

end GrowingWindow

/-- What is done to a window. -/
inductive WindowOp
  | literal (slot : Nat)
  | copy (distance length : Nat)
  | reset

namespace WindowOp

/-- The matches of a stream. -/
def Legal (winSize : Nat) : WindowOp → Prop
  | literal _ => True
  | copy distance length => (1 ≤ distance ∧ distance ≤ winSize) ∧ 1 ≤ length ∧ length ≤ 0x1004
  | reset => True

def apply : WindowOp → GrowingWindow → Option GrowingWindow
  | literal slot, w => w.writeLiteral slot
  | copy distance length, w => w.copyMatch distance length
  | reset, w => some w.resetWindow

/-- The decoded bytes since the last reset.  A match that reaches before the first of them
stands for zeros. -/
def decode : WindowOp → List UInt8 → List UInt8
  | literal slot, hist => hist ++ [UInt8.ofNat slot]
  | copy distance length, hist =>
    if distance ≤ hist.length then OverlapCopy.copyBytes hist distance length
    else hist ++ List.replicate length 0
  | reset, _ => []

/-- The same, but the bytes of a match are looked up one by one, and only those before the
first byte are zero. -/
def decodeBytewise : WindowOp → List UInt8 → List UInt8
  | literal slot, hist => hist ++ [UInt8.ofNat slot]
  | copy distance length, hist =>
    (List.range length).foldl (fun out _ =>
      out ++ [if distance ≤ out.length then out.getD (out.length - distance) 0 else 0]) hist
  | reset, _ => []

def runAll (ops : List WindowOp) (w : GrowingWindow) : Option GrowingWindow :=
  ops.foldlM (fun w op => op.apply w) w

def decodeAll (ops : List WindowOp) (hist : List UInt8) : List UInt8 :=
  ops.foldl (fun hist op => op.decode hist) hist

def decodeAllBytewise (ops : List WindowOp) (hist : List UInt8) : List UInt8 :=
  ops.foldl (fun hist op => op.decodeBytewise hist) hist

end WindowOp

/-! ## Accesses are in bounds -/

namespace ApplyEngine

variable {engine : ApplyEngine} {hist bytes : List UInt8} {cap distance src : Nat}

/-- The slots exist up to `n` bytes behind the history, or the whole ring does. -/
structure Room (cap : Nat) (engine : ApplyEngine) (hist : List UInt8) (n : Nat) : Prop where
  cap_le : cap ≤ engine.winSize
  room : cap = engine.winSize ∨ hist.length + n ≤ cap

variable {n count length : Nat}

theorem Room.fits (h : Holding engine hist) (hroom : Room cap engine hist n)
    (hcount : count ≤ n) (hfit : engine.winPos + count ≤ engine.winSize) :
    engine.winPos + count ≤ cap := by
  rcases hroom.room with hfull | hlinear
  · omega
  · have hle := Nat.mod_le hist.length engine.winSize
    have hpos := h.pos
    omega

/-- A source that does not overlap its target lies in the slots that exist. -/
theorem Room.source (h : Holding engine hist) (hroom : Room cap engine hist n)
    (hsrc : SourceSlot engine distance src) (hpos : 0 < distance)
    (hdist : distance ≤ engine.winSize) (hreach : distance ≤ hist.length)
    (hend : src + count ≤ engine.winSize) (hgap : count ≤ slotGap src engine.winPos) :
    src + count ≤ cap := by
  rcases hroom.room with hfull | hlinear
  · omega
  · -- Before the first wrap the history is a prefix of the ring.
    by_cases hwrap : hist.length < engine.winSize
    · have hposition : engine.winPos = hist.length := by rw [h.pos, Nat.mod_eq_of_lt hwrap]
      have hcases := hsrc.cases h hpos hdist
      unfold slotGap at hgap
      split at hgap <;> omega
    · omega

theorem zeroRunChecked_eq (fuel rem : Nat) (h : Holding engine hist)
    (hroom : Room cap engine hist rem) :
    zeroRunChecked cap fuel rem engine = some (zeroRun fuel rem engine) := by
  induction fuel generalizing engine hist rem with
  | zero => rfl
  | succ fuel ih =>
    rw [zeroRunChecked, zeroRun]
    by_cases hzero : rem = 0
    · rw [if_pos hzero, if_pos hzero]
    rw [if_neg hzero, if_neg hzero]
    have hlt := h.pos_lt
    dsimp only
    generalize hchunk : min rem (engine.winSize - engine.winPos) = chunk
    have hfits : engine.winPos + chunk ≤ cap := hroom.fits h (by omega) (by omega)
    have hset : checkedSet cap engine.window engine.winPos 0 chunk
        = some (setBlock engine.window engine.winPos 0 chunk) := if_pos (Or.inr hfits)
    rw [hset, bind_eq_bind, bind_some]
    -- The zeros extend the history, and less room is needed behind it.
    have hnext := h.writeZeros (show 0 < chunk by omega) (by omega)
    refine ih _ hnext ⟨hroom.cap_le, ?_⟩
    rw [length_append, length_replicate]
    rcases hroom.room with hfull | hlinear
    · exact Or.inl hfull
    · exact Or.inr (by omega)

theorem doubleRunChecked_eq {winSize winPos : Nat} (fuel done remaining : Nat)
    (window : Nat → UInt8)
    (hcap : ∀ count, count ≤ done + remaining → winPos + count ≤ winSize → winPos + count ≤ cap) :
    doubleRunChecked cap winSize winPos fuel done remaining window
      = some (doubleRun winSize winPos fuel done remaining window) := by
  induction fuel generalizing done remaining window with
  | zero => rfl
  | succ fuel ih =>
    rw [doubleRunChecked, doubleRun]
    generalize hstep : min (min done remaining) (winSize - (winPos + done)) = step
    by_cases hzero : step = 0
    · rw [if_pos hzero, if_pos hzero]
    rw [if_neg hzero, if_neg hzero]
    have hdst := hcap (done + step) (by omega) (by omega)
    have hmove : checkedMove cap window (winPos + done) winPos step
        = some (moveBlock window (winPos + done) winPos step) :=
      if_pos (Or.inr ⟨by omega, by omega⟩)
    rw [hmove, bind_eq_bind, bind_some]
    exact ih (done + step) (remaining - step) _ fun count hcount hfit =>
      hcap count (by omega) hfit

theorem copyChunkChecked_eq (h : Holding engine hist) (hsrc : SourceSlot engine distance src)
    (hreach : distance ≤ hist.length) (hpos : 0 < distance) (hdist : distance ≤ engine.winSize)
    (hroom : Room cap engine hist length) :
    engine.copyChunkChecked cap distance src length
      = some (engine.copyChunk distance src length) := by
  have hlt := h.pos_lt
  have hslot : src < engine.winSize := by
    rw [hsrc]
    exact Nat.mod_lt _ h.size_pos
  unfold copyChunkChecked copyChunk
  dsimp only
  generalize hchunk : min (min (min length (engine.winSize - engine.winPos))
    (engine.winSize - src)) (slotGap src engine.winPos) = chunk
  have hdst : engine.winPos + chunk ≤ cap := hroom.fits h (by omega) (by omega)
  have hread : src + chunk ≤ cap := hroom.source h hsrc hpos hdist hreach (by omega) (by omega)
  have hmove : checkedMove cap engine.window engine.winPos src chunk
      = some (moveBlock engine.window engine.winPos src chunk) := if_pos (Or.inr ⟨hdst, hread⟩)
  rw [hmove, bind_eq_bind, bind_some]
  split
  · exact doubleRunChecked_eq length chunk (length - chunk) _ fun count hcount hfit =>
      hroom.fits h (by omega) hfit
  · rfl

theorem chunkLoopChecked_eq (fuel : Nat) (h : Holding engine hist)
    (hsrc : SourceSlot engine distance src) (hreach : distance ≤ hist.length)
    (hpos : 0 < distance) (hdist : distance < engine.winSize)
    (hcopy : IsCopy distance hist bytes) (hroom : Room cap engine hist bytes.length) :
    chunkLoopChecked cap distance fuel src bytes.length engine
      = some (chunkLoop distance fuel src bytes.length engine) := by
  induction fuel generalizing engine hist bytes src with
  | zero => rfl
  | succ fuel ih =>
    rw [chunkLoopChecked, chunkLoop]
    by_cases hzero : bytes.length = 0
    · rw [if_pos hzero, if_pos hzero]
    rw [if_neg hzero, if_neg hzero, copyChunkChecked_eq h hsrc hreach hpos hdist.le hroom,
      bind_eq_bind, bind_some]
    -- The chunk extends the history, and less room is needed behind it.
    obtain ⟨hwritten, hdone⟩ := copyChunk_written h hsrc hreach hpos hdist hcopy (by omega)
    generalize engine.copyChunk distance src bytes.length = result at hwritten hdone ⊢
    have hle := hwritten.le
    have hfit := hwritten.fit
    have hslot := hsrc.advance h hdist.le result.2 (by omega) result.1
    have hrest : bytes.length - result.2 = (bytes.drop result.2).length := by simp
    have htaken : (bytes.take result.2).length = result.2 := by simpa using hle
    dsimp only
    rw [hrest]
    apply ih (hwritten.holding h hdone) hslot
    · rw [length_append]
      omega
    · exact hdist
    · rw [← take_append_drop result.2 bytes] at hcopy
      exact hcopy.split.2
    · refine ⟨hroom.cap_le, ?_⟩
      rw [length_append, htaken, ← hrest]
      rcases hroom.room with hfull | hlinear
      · exact Or.inl hfull
      · exact Or.inr (by omega)

/-- **Every access of a match is in bounds.** -/
theorem copyMatchChecked_eq (h : Holding engine hist) (hpos : 0 < distance)
    (hdist : distance ≤ engine.winSize) (hne : 0 < length)
    (hroom : Room cap engine hist length) :
    engine.copyMatchChecked cap distance length = some (engine.copyMatch distance length) := by
  have hlt := h.pos_lt
  have hsrc : SourceSlot engine distance
      (engine.wrapUp (engine.winPos + engine.winSize - distance)) :=
    wrapUp_eq h.size_pos (by omega)
  unfold copyMatchChecked ApplyEngine.copyMatch
  rw [if_neg (show ¬ (distance = 0 ∨ distance > engine.winSize) by omega)]
  generalize engine.wrapUp (engine.winPos + engine.winSize - distance) = src at hsrc ⊢
  by_cases hzero : distance > engine.winPos ∧ ¬ engine.firstWinDone = true
  · rw [if_pos hzero, if_pos hzero]
    exact zeroRunChecked_eq length length h hroom
  rw [if_neg hzero, if_neg hzero]
  -- Otherwise the match reaches into the history.
  have hreach : distance ≤ hist.length := by
    by_contra hless
    apply hzero
    rw [h.pos, h.done, Nat.mod_eq_of_lt (by omega), decide_eq_true_eq]
    omega
  have hcases := hsrc.cases h hpos hdist
  by_cases hself : src = engine.winPos
  · rw [if_pos hself, if_pos hself]
  rw [if_neg hself, if_neg hself]
  by_cases hone : distance = 1 ∧ engine.winPos + length ≤ engine.winSize
  · rw [if_pos hone, if_pos hone]
    have hgap : 1 ≤ slotGap src engine.winPos := by
      unfold slotGap
      split <;> omega
    have hread : src + 1 ≤ cap := hroom.source h hsrc hpos hdist hreach (by omega) hgap
    have hget : checkedGet cap engine.window src = some (engine.window src) := if_pos hread
    have hset : checkedSet cap engine.window engine.winPos (engine.window src) length
        = some (setBlock engine.window engine.winPos (engine.window src) length) :=
      if_pos (Or.inr (hroom.fits h le_rfl hone.2))
    simp [hget, hset]
  rw [if_neg hone, if_neg hone]
  by_cases hblock : src + length ≤ engine.winSize ∧ engine.winPos + length ≤ engine.winSize
      ∧ slotGap src engine.winPos ≥ length
  · rw [if_pos hblock, if_pos hblock]
    obtain ⟨hend, hfit, hgap⟩ := hblock
    have hmove : checkedMove cap engine.window engine.winPos src length
        = some (moveBlock engine.window engine.winPos src length) :=
      if_pos (Or.inr ⟨hroom.fits h le_rfl hfit,
        hroom.source h hsrc hpos hdist hreach hend hgap⟩)
    rw [hmove, bind_eq_bind, bind_some]
  rw [if_neg hblock, if_neg hblock]
  obtain ⟨bytes, rfl, hcopy⟩ := exists_isCopy hpos hreach length
  exact chunkLoopChecked_eq _ h hsrc hreach hpos (by omega) hcopy hroom

end ApplyEngine

/-! ## Runs -/

namespace GrowingWindow

open ApplyEngine

variable {w : GrowingWindow} {hist : List UInt8}

/-- The ring is the tail of the history, and as long as slots are missing the history fits
those that exist. -/
structure Grown (w : GrowingWindow) (hist : List UInt8) : Prop where
  holding : Holding w.engine hist
  room : Room w.cap w.engine hist 0

theorem grow_engine (w : GrowingWindow) (n : Nat) : (w.grow n).engine = w.engine := by
  unfold grow
  dsimp only
  split_ifs <;> rfl

theorem reserve_engine (w : GrowingWindow) (n : Nat) : (w.reserve n).engine = w.engine := by
  unfold reserve
  split_ifs
  · rfl
  · exact grow_engine w n

/-- While slots are missing the write position is the length of the history. -/
theorem Grown.position (h : Grown w hist) (hless : w.cap ≠ w.engine.winSize) :
    w.engine.winPos = hist.length ∧ hist.length ≤ w.cap := by
  have hcap := h.room.cap_le
  have hlen := h.room.room.resolve_left hless
  refine ⟨?_, hlen⟩
  rw [h.holding.pos, Nat.mod_eq_of_lt (by omega)]

theorem Grown.grow_room (h : Grown w hist) (n : Nat) :
    Room (w.grow n).cap w.engine hist n := by
  have hcap := h.room.cap_le
  unfold grow
  dsimp only
  by_cases hfull : w.cap = w.engine.winSize
  · rw [if_pos hfull]
    exact ⟨hcap, Or.inl hfull⟩
  obtain ⟨hposition, hlen⟩ := h.position hfull
  rw [if_neg hfull]
  generalize hneed : (if n ≥ w.engine.winSize - w.engine.winPos then w.engine.winSize
    else w.engine.winPos + n) = need
  have hneeded : need ≤ w.engine.winSize ∧ (need = w.engine.winSize ∨ need = hist.length + n) := by
    split at hneed <;> omega
  split
  · exact ⟨hcap, by omega⟩
  · constructor
    · exact Nat.min_le_right _ _
    · dsimp only
      split <;> omega

theorem Grown.reserve_room (h : Grown w hist) (n : Nat) :
    Room (w.reserve n).cap w.engine hist n := by
  have hcap := h.room.cap_le
  unfold reserve
  split
  · next henough =>
    refine ⟨hcap, ?_⟩
    by_cases hfull : w.cap = w.engine.winSize
    · exact Or.inl hfull
    · obtain ⟨hposition, hlen⟩ := h.position hfull
      exact Or.inr (by omega)
  · exact h.grow_room n

theorem alloc_grown (winSize : Nat) : Grown (alloc winSize) [] where
  holding :=
    { size := Nat.le_max_right _ _
      pos := by simp [alloc, init]
      done := by
        show false = decide (max winSize 0x10000 ≤ 0)
        simp
      holds := fun p hp => absurd hp (Nat.not_lt_zero p) }
  room := ⟨Nat.min_le_left _ _, Or.inr (Nat.zero_le _)⟩

theorem Grown.resetWindow (h : Grown w hist) : Grown w.resetWindow [] where
  holding :=
    { size := h.holding.size
      pos := (Nat.zero_mod _).symm
      done := by
        have hpos := h.holding.size_pos
        show false = decide (w.engine.winSize ≤ 0)
        simp
        omega
      holds := fun p hp => absurd hp (Nat.not_lt_zero p) }
  room := ⟨h.room.cap_le, Or.inr (Nat.zero_le _)⟩

theorem Grown.writeLiteral (h : Grown w hist) (slot : Nat) :
    ∃ w', w.writeLiteral slot = some w' ∧ Grown w' (hist ++ [UInt8.ofNat slot]) ∧
      w'.engine.winSize = w.engine.winSize := by
  have hlt := h.holding.pos_lt
  -- Either way there is room for one more byte.
  have hroom : ∃ cap, (if w.engine.winPos ≥ w.cap then w.grow 1 else w) = ⟨w.engine, cap⟩ ∧
      Room cap w.engine hist 1 := by
    split
    · refine ⟨(w.grow 1).cap, ?_, h.grow_room 1⟩
      rw [← grow_engine w 1]
    · refine ⟨w.cap, rfl, h.room.cap_le, ?_⟩
      by_cases hfull : w.cap = w.engine.winSize
      · exact Or.inl hfull
      · obtain ⟨hposition, hlen⟩ := h.position hfull
        exact Or.inr (by omega)
  obtain ⟨cap, hgrown, hroom⟩ := hroom
  have hset : checkedSet cap w.engine.window w.engine.winPos (UInt8.ofNat slot) 1
      = some (setBlock w.engine.window w.engine.winPos (UInt8.ofNat slot) 1) :=
    if_pos (Or.inr (hroom.fits h.holding le_rfl hlt))
  unfold GrowingWindow.writeLiteral
  rw [hgrown]
  dsimp only
  rw [hset, bind_eq_bind, bind_some]
  refine ⟨_, rfl, ⟨h.holding.writeLiteral slot, hroom.cap_le, ?_⟩, rfl⟩
  rw [length_append, length_singleton]
  exact hroom.room

theorem Grown.copyMatch (h : Grown w hist) {distance length : Nat} (hpos : 0 < distance)
    (hdist : distance ≤ w.engine.winSize) (hne : 0 < length) (hlen : length ≤ w.engine.winSize) :
    ∃ w', w.copyMatch distance length = some w' ∧
      Grown w' (WindowOp.decode (.copy distance length) hist) ∧
      w'.engine.winSize = w.engine.winSize := by
  have hroom := h.reserve_room length
  have hchecked := copyMatchChecked_eq h.holding hpos hdist hne hroom
  unfold GrowingWindow.copyMatch
  rw [if_neg (by omega)]
  dsimp only
  rw [reserve_engine, hchecked, bind_eq_bind, bind_some]
  have hsize : (w.engine.copyMatch distance length).winSize = w.engine.winSize :=
    (sameQueue_copyMatch w.engine distance length).winSize
  have hgrown : ∀ bytes : List UInt8, bytes.length = length →
      Holding (w.engine.copyMatch distance length) (hist ++ bytes) →
      Grown { w.reserve length with engine := w.engine.copyMatch distance length }
        (hist ++ bytes) := by
    intro bytes hbytes hholding
    refine ⟨hholding, ?_, ?_⟩
    · exact hsize.symm ▸ hroom.cap_le
    · rw [length_append, hbytes]
      exact hsize.symm ▸ hroom.room
  refine ⟨_, rfl, ?_, hsize⟩
  rw [WindowOp.decode]
  by_cases hreach : distance ≤ hist.length
  · obtain ⟨bytes, hbytes, hcopy⟩ := exists_isCopy hpos hreach length
    have hdecode := OverlapCopy.copyBytes_isCopy hcopy hpos hreach
    rw [hbytes] at hdecode
    rw [if_pos hreach, hdecode]
    refine hgrown bytes hbytes ?_
    rw [← hbytes]
    exact h.holding.copyMatch hcopy hpos hreach hdist (by omega) (by omega)
  · rw [if_neg hreach]
    exact hgrown _ length_replicate (h.holding.copyMatch_zero hdist (by omega) length)

/-- One operation. -/
theorem Grown.apply (h : Grown w hist) {op : WindowOp} (hlegal : op.Legal w.engine.winSize) :
    ∃ w', op.apply w = some w' ∧ Grown w' (op.decode hist) ∧
      w'.engine.winSize = w.engine.winSize := by
  cases op with
  | literal slot => exact h.writeLiteral slot
  | copy distance length =>
    obtain ⟨⟨hpos, hdist⟩, hne, hlen⟩ := hlegal
    have hsize := h.holding.size
    exact h.copyMatch hpos hdist hne (by omega)
  | reset => exact ⟨_, rfl, h.resetWindow, rfl⟩

theorem Grown.run (ops : List WindowOp) (h : Grown w hist)
    (hlegal : ∀ op ∈ ops, op.Legal w.engine.winSize) :
    ∃ w', WindowOp.runAll ops w = some w' ∧ Grown w' (WindowOp.decodeAll ops hist) ∧
      w'.engine.winSize = w.engine.winSize := by
  induction ops generalizing w hist with
  | nil => exact ⟨w, rfl, h, rfl⟩
  | cons op ops ih =>
    obtain ⟨w1, happly, hgrown, hsize⟩ := h.apply (hlegal op mem_cons_self)
    obtain ⟨w2, hrun, hgrown2, hsize2⟩ := ih hgrown
      (fun o ho => hsize ▸ hlegal o (mem_cons_of_mem op ho))
    refine ⟨w2, ?_, hgrown2, hsize2.trans hsize⟩
    rw [WindowOp.runAll, foldlM_cons, happly]
    exact hrun

/-- **The growing ring refines the decoded bytes.**  From the allocation on, any sequence
of literals, matches and resets runs without an access beyond the slots that exist, and
the ring holds the last bytes decoded since the last reset. -/
theorem growing_window_refines (winSize : Nat) (ops : List WindowOp)
    (hlegal : ∀ op ∈ ops, op.Legal (max winSize 0x10000)) :
    ∃ w, WindowOp.runAll ops (alloc winSize) = some w ∧
      w.engine.winSize = max winSize 0x10000 ∧ Holding w.engine (WindowOp.decodeAll ops []) ∧
      w.cap ≤ w.engine.winSize := by
  obtain ⟨w, hrun, hgrown, hsize⟩ := (alloc_grown winSize).run ops hlegal
  exact ⟨w, hrun, hsize, hgrown.holding, hgrown.room.cap_le⟩

/-- A run of one byte, on the smallest window. -/
theorem growing_window_refines_run :
    ∃ w, WindowOp.runAll [.literal 65, .copy 1 3] (alloc 0) = some w ∧
      Holding w.engine [65, 65, 65, 65] := by
  obtain ⟨w, hrun, -, hholding, -⟩ := growing_window_refines 0 [.literal 65, .copy 1 3] (by
    intro op hop
    rcases mem_cons.mp hop with rfl | hop
    · trivial
    · obtain rfl := mem_singleton.mp hop
      exact ⟨by decide, by decide⟩)
  exact ⟨w, hrun, hholding⟩

/-- A match that begins before the first byte and ends behind it: looked up byte by byte it
ends with the first byte, in the window it is zero. -/
theorem match_before_start_zero :
    (WindowOp.runAll [.literal 65, .copy 2 2] (alloc 0)).map
        (fun w => [w.engine.window 0, w.engine.window 1, w.engine.window 2]) = some [65, 0, 0] ∧
      WindowOp.decodeAllBytewise [.literal 65, .copy 2 2] [] = [65, 0, 65] := by
  decide +kernel

end GrowingWindow

end OpenRar.Compress
