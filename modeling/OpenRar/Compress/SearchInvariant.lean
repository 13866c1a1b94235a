import OpenRar.Compress.EncoderInvariant

/-!
# The search extends the run

Whichever way the encoder chooses its next token, by the forward-arrival parser or by
the arbiter, the choice rests on comparisons that were made at the current position
and stays inside the current filter region.  So one search extends the run by one
token.
-/

namespace OpenRar.Compress

open OpenRar.Core List

namespace Compressor50

variable {m : Member} {win : Reach} {shift : Nat} {st : LzState} {c c' : Compressor50}

theorem Collecting.of_same (h : Collecting m win shift st c) (hsame : SameTokens c c') :
    Collecting m win shift st c' := by
  have hframed : Collecting m win shift st { c.frame with
      tokens := c.tokens, freq := c.freq, oldDist := c.oldDist, lastLength := c.lastLength
      cur := c.cur } := { h with }
  rw [← hsame.frame, ← hsame.tokens, ← hsame.freq, ← hsame.oldDist, ← hsame.lastLength,
    ← hsame.cur] at hframed
  exact { hframed with }

theorem Progress.of_same {c1 : Compressor50} (hsame : SameTokens c c1)
    (h : Progress m win shift st c1 c') : Progress m win shift st c c' where
  collecting := h.collecting
  frame := h.frame.trans hsame.frame
  lt := hsame.cur ▸ h.lt
  le := hsame.cur ▸ h.le
  count := hsame.tokens ▸ h.count

theorem Room.of_same {len : Nat} (h : Room c len) (hsame : SameTokens c c') : Room c' len := by
  have hframed : Room { c.frame with cur := c.cur } len := { h with }
  rw [← hsame.frame, ← hsame.cur] at hframed
  exact { hframed with }

/-- A bound on the next token: a legal length that stays inside the region. -/
structure Clamp (c : Compressor50) (room : Nat) : Prop where
  le : room ≤ maxLzMatch
  region : c.activeFilter ≠ .none → c.cur + room ≤ c.filterEmittedUntil

theorem Clamp.room {room len : Nat} (h : Clamp c room) (hlen : len ≤ room)
    (hinside : c.cur + len ≤ c.srcLoaded) : Room c len where
  loaded := hinside
  region := fun hactive => le_trans (by omega) (h.region hactive)

/-- The bound that the encoder takes, in a region that is still open. -/
theorem Room.clamp (h : Room c 1) : Clamp c c.curMaxLz := by
  unfold curMaxLz inRegion
  constructor
  · split
    · exact Nat.min_le_left _ _
    · exact Nat.le_refl _
  · intro hactive
    have hopen := h.region hactive
    rw [if_pos (by simp only [ne_eq, hactive, not_false_eq_true, decide_true, Bool.true_and,
      decide_eq_true_eq]; omega)]
    omega

/-! ## Candidates -/

/-- The scan over the repeat distances has found nothing or a repeat match. -/
structure FoundRep (c : Compressor50) (room : Nat) (best : Nat × Option Nat) : Prop where
  le : best.1 ≤ room
  rep : ∀ idx, best.2 = some idx → idx < 4 ∧ RepAt c c.cur idx best.1

theorem scanRep_found {room i : Nat} {best : Nat × Option Nat} (hreps : c.oldDist.length = 4)
    (hroom : room ≤ maxLzMatch + 3) (hi : i < 4) (h : FoundRep c room best) :
    FoundRep c room (c.scanRep room best i) := by
  unfold scanRep
  dsimp only
  split
  · exact h
  next hdist =>
  split
  · exact h
  split
  · next hlonger =>
    obtain ⟨hcompared, hpos, hreach⟩ := repLength_compared hroom
      (show c.repLength c.cur (c.oldDist.getD i 0) room ≠ 0 by omega)
    refine ⟨c.repLength_le _ _ _, fun idx hidx => ?_⟩
    cases hidx
    refine ⟨hi, c.oldDist.getD i 0, ?_, fun heq => hdist (Or.inl heq), hpos, hreach, hcompared⟩
    rw [getD_eq_getElem _ _ (by omega), List.getElem?_eq_getElem]
  · exact h

theorem bestRep_found {room : Nat} (hreps : c.oldDist.length = 4) (hroom : room ≤ maxLzMatch + 3) :
    FoundRep c room (c.bestRep room) := by
  refine List.foldlRecOn _ _ ?_ fun best hbest i hi => ?_
  · exact ⟨Nat.zero_le _, fun idx hidx => by cases hidx⟩
  · exact scanRep_found hreps hroom (mem_range.mp hi) hbest

theorem searchAt_sound (c : Compressor50) (chain pos room : Nat) :
    MatchInfo.Sound c pos (c.searchAt chain pos room) := by
  unfold searchAt
  intro hne
  have hsound : MatchInfo.Sound c pos
      (if chain > 0 then c.findMatch pos chain c.niceLen else ⟨0, none⟩) := by
    split
    · exact findMatch_sound c pos chain c.niceLen
    · exact MatchInfo.sound_empty c pos none
  obtain ⟨cand, hcand, hcompared⟩ := hsound (by dsimp only at hne; omega)
  exact ⟨cand, hcand, hcompared.shorten (Nat.min_le_left _ _)⟩

theorem searchAt_le (c : Compressor50) (chain pos room : Nat) :
    (c.searchAt chain pos room).length ≤ room := Nat.min_le_right _ _

section

variable (h : Collecting m win shift st c)
include h

theorem Collecting.candidates {room chain : Nat} (hroom : room ≤ maxLzMatch) :
    Candidates c c.cur (c.searchAt chain c.cur room).length
      (c.searchAt chain c.cur room).candidate (c.bestRep room).1 (c.bestRep room).2 room := by
  have hrep := bestRep_found h.reps (le_trans hroom (by decide : maxLzMatch ≤ maxLzMatch + 3))
  constructor
  · exact h.minMatch
  · exact h.niceLen
  · exact h.reps
  · exact searchAt_le c chain c.cur room
  · exact searchAt_sound c chain c.cur room
  · exact hrep.le
  · exact hrep.rep

/-! ## Both ways of choosing -/

/-- **An admissible decision extends the run.** -/
theorem Collecting.emitDecision {room : Nat} {d : Decision}
    (hclamp : Clamp c room) (hopen : Room c 1) (hd : Admissible c c.cur room d) :
    Progress m win shift st c (c.emitDecision d) := by
  have hle := hclamp.le
  cases d with
  | literal => exact h.emitLiteral (sameTokens_bumpFail c) hopen
  | rep index len =>
    obtain ⟨hindex, hmin, hlen, hrep⟩ := hd
    exact h.rep (sameTokens_clearFail c len) hindex hmin (by omega) hrep
      (hclamp.room hlen hrep.inside)
  | lastLen len =>
    obtain ⟨heq, hne, hlen, hrep⟩ := hd
    subst heq
    exact h.lastLen (sameTokens_clearFail c _) hne (by omega) hrep
      (hclamp.room hlen hrep.inside)
  | match_ len dist =>
    obtain ⟨hpos, hreach, hlen, hcompared⟩ := hd
    have hsame := sameTokens_clearFail c len
    show Progress m win shift st c ((c.clearFail len).emitMatch len dist)
    unfold emitMatch
    dsimp only
    split
    · exact h.emitLiteral (hsame.trans (sameTokens_bumpFail _)) hopen
    · next hactual =>
      rw [addMatch_length] at hactual
      split at hactual
      · exact absurd rfl hactual
      · next hmin =>
        have := h.match_ hsame hcompared
          (by rw [show c.cur - (c.cur - dist) = dist by omega]; omega)
          (hclamp.room hlen hcompared.inside)
        rwa [show c.cur - (c.cur - dist) = dist by omega] at this

theorem Collecting.arrival {room chain : Nat} (hclamp : Clamp c room) (hopen : Room c 1) :
    Progress m win shift st c
      (c.arrival (c.searchAt chain c.cur room) (c.bestRep room).1 (c.bestRep room).2 room) := by
  unfold Compressor50.arrival
  split
  · exact h.emitDecision hclamp hopen trivial
  · exact h.emitDecision hclamp hopen (evaluateForwardArrival_admissible
      (h.candidates hclamp.le) (le_trans hclamp.le (by decide : maxLzMatch ≤ maxLzMatch + 3)))

theorem Collecting.freshOrLiteral {room len dist : Nat}
    (hfound : len ≠ 0 → ∃ cand, dist = c.cur - cand ∧ Compared c c.cur len cand)
    (hlen : len ≤ room) (hclamp : Clamp c room) (hopen : Room c 1) (chain : Nat) :
    Progress m win shift st c (c.freshOrLiteral chain len dist room) := by
  unfold Compressor50.freshOrLiteral
  dsimp only
  split
  · next hlong =>
    obtain ⟨cand, hdist, hcompared⟩ := hfound (by omega)
    split
    · exact h.emitLiteral (sameTokens_clearFail c _) hopen
    · rw [hdist] at hlong ⊢
      exact h.match_ (sameTokens_clearFail c _) hcompared hlong.2
        (hclamp.room hlen hcompared.inside)
  · exact h.emitLiteral (sameTokens_bumpFail c) hopen

end

theorem freshDistance_found {best : MatchInfo} (hbest : MatchInfo.Sound c c.cur best)
    (hne : best.length ≠ 0) :
    ∃ cand, c.freshDistance best = c.cur - cand ∧ Compared c c.cur best.length cand := by
  obtain ⟨cand, hcand, hcompared⟩ := hbest hne
  refine ⟨cand, ?_, hcompared⟩
  rw [freshDistance, hcand]
  exact if_pos (by omega)

theorem Collecting.arbiter (h : Collecting m win shift st c) {room chain : Nat}
    (hclamp : Clamp c room) (hopen : Room c 1) :
    Progress m win shift st c (c.arbiter chain (c.searchAt chain c.cur room) (c.bestRep room).1
      (c.bestRep room).2 room) := by
  have hmin := h.minMatch
  have hle := hclamp.le
  have hfresh := h.freshOrLiteral (freshDistance_found (searchAt_sound c chain c.cur room))
    (searchAt_le c chain c.cur room) hclamp hopen chain
  have hrep := bestRep_found h.reps (le_trans hclamp.le (by decide : maxLzMatch ≤ maxLzMatch + 3))
  unfold Compressor50.arbiter
  dsimp only
  split
  · next idx hidx =>
    obtain ⟨hindex, hat⟩ := hrep.rep idx hidx
    have hroom := hclamp.room hrep.le hat.inside
    have hlenle := hrep.le
    split
    · next hwins =>
      have hsame := sameTokens_clearFail c (c.bestRep room).1
      split
      · next hlast =>
        obtain ⟨_, hzero, hne, heq⟩ := hlast
        rw [hsame.lastLength] at hne heq ⊢
        rw [heq] at hat hroom hlenle
        rw [hzero] at hat
        exact h.lastLen hsame hne (by omega) hat hroom
      · exact h.rep hsame hindex (by omega) (by omega) hat hroom
    · exact hfresh
  · exact hfresh

theorem sameTokens_catchUp (c : Compressor50) : SameTokens c c.catchUp := by
  have hhash := sameTokens_hashRange c c.unhashedPos c.cur
  exact ⟨hhash.frame, hhash.tokens, hhash.freq, hhash.oldDist, hhash.lastLength, hhash.cur⟩

theorem Collecting.chooseToken (h : Collecting m win shift st c) (hroom : Room c 1) :
    Progress m win shift st c c.chooseToken := by
  unfold Compressor50.chooseToken
  split
  · exact h.emitLiteral (sameTokens_bumpFail c) hroom
  · split
    · exact h.arrival hroom.clamp hroom
    · exact h.arbiter hroom.clamp hroom

/-- **One search extends the run by one token.** -/
theorem Collecting.searchToken (h : Collecting m win shift st c) (hroom : Room c 1) :
    Progress m win shift st c c.searchToken := by
  have hsame := sameTokens_catchUp c
  exact ((h.of_same hsame).chooseToken (hroom.of_same hsame)).of_same hsame

end Compressor50

end OpenRar.Compress
