import OpenRar.Compress.EngineHistory

/-!
# What the engine hands to the caller

The engine keeps decoded bytes in its window and hands them over later: plain
bytes in contiguous runs, a filter region as a whole once it is complete.  The
module follows one member of a solid chain.  Its history is the bytes of the
earlier members, then the bytes the tokens stand for (`enc`); what the caller is
meant to see is `orig`.

A member is either plain, and then both agree, or it is a sequence of filter
regions without gaps.  For both kinds the flush check between tokens succeeds, and
what was handed over is a prefix of `orig`.
-/

namespace OpenRar.Compress

open RingHistory OpenRar.Core List Option

/-- A member in its chain: earlier bytes, the bytes of its tokens, and its content. -/
structure Member where
  prior : List UInt8
  enc : List UInt8
  orig : List UInt8

namespace ApplyEngine

variable {engine : ApplyEngine} {hist : List UInt8}

section

variable (h : Holding engine hist)
include h

/-- Handing bytes over does not touch the window. -/
theorem Holding.reflush (lastFlushed : Nat) (emitted : List (List UInt8)) :
    Holding { engine with lastFlushed := lastFlushed, emitted := emitted } hist :=
  { h with }

theorem Holding.requeue (filters : List FilterEntry) :
    Holding { engine with filters := filters } hist :=
  { h with }

theorem Holding.back_slot {back : Nat} (hback : back ≤ hist.length) :
    (engine.winPos + engine.winSize - back % engine.winSize) % engine.winSize
      = (hist.length - back) % engine.winSize := by
  have hlt := Nat.mod_lt back h.size_pos
  have hdecomp := Nat.div_add_mod back engine.winSize
  rw [h.pos, Nat.add_sub_assoc hlt.le, Nat.mod_add_mod,
    ← Nat.add_mul_mod_self_left (hist.length - back) engine.winSize (back / engine.winSize + 1)]
  congr 1
  rw [Nat.mul_add, Nat.mul_one]
  omega

/-- Reading `count` slots from there gives the bytes of the history. -/
theorem Holding.ringBytes_back (back count : Nat)
    (hback : back ≤ hist.length) (hwin : back ≤ engine.winSize) (hcount : count ≤ back) :
    engine.ringBytes
        ((engine.winPos + engine.winSize - back % engine.winSize) % engine.winSize) count
      = (hist.drop (hist.length - back)).take count := by
  rw [h.back_slot hback]
  apply ext_getElem?
  intro i
  unfold ringBytes
  by_cases hi : i < count
  · rw [List.getElem?_take_of_lt hi, List.getElem?_drop,
      h.holds (hist.length - back + i) (by omega) (by omega), List.getElem?_map,
      List.getElem?_range hi, map_some, Nat.mod_add_mod]
  · rw [List.getElem?_eq_none (by simpa using hi), List.getElem?_eq_none]
    rw [length_take]
    omega

end

/-- The loop hands over the bytes up to its target. -/
theorem flushLoop_spec {total target : Nat} (fuel : Nat) (h : Holding engine hist)
    (htotal : total ≤ hist.length) (htarget : target ≤ total)
    (hlag : total - engine.lastFlushed ≤ engine.winSize)
    (hfuel : target - engine.lastFlushed ≤ fuel) (hle : engine.lastFlushed ≤ target) :
    ∃ chunks : List (List UInt8),
      flushLoop total target fuel engine
          = { engine with lastFlushed := target, emitted := engine.emitted ++ chunks } ∧
        chunks.flatten
          = (hist.drop (hist.length - (total - engine.lastFlushed))).take
              (target - engine.lastFlushed) := by
  induction fuel generalizing engine with
  | zero =>
    have heq : engine.lastFlushed = target := by omega
    refine ⟨[], ?_, ?_⟩
    · rw [flushLoop, ← heq, append_nil]
    · rw [heq, Nat.sub_self]
      rfl
  | succ fuel ih =>
    rw [flushLoop]
    by_cases hlt : engine.lastFlushed < target
    · rw [if_pos hlt]
      generalize hslot : (engine.winPos + engine.winSize
        - (total - engine.lastFlushed) % engine.winSize) % engine.winSize = circStart
      have hcirc : circStart < engine.winSize := by
        rw [← hslot]
        exact Nat.mod_lt _ h.size_pos
      generalize hchunk : min (target - engine.lastFlushed) (engine.winSize - circStart) = chunk
      have hbytes := h.ringBytes_back (total - engine.lastFlushed) chunk (by omega) hlag
        (by omega)
      rw [hslot] at hbytes
      obtain ⟨chunks, hrun, hflat⟩ := ih (h.reflush (engine.lastFlushed + chunk)
        (engine.emitted ++ [engine.ringBytes circStart chunk])) (by simp only; omega)
        (by simp only; omega) (by simp only; omega)
      refine ⟨engine.ringBytes circStart chunk :: chunks, ?_, ?_⟩
      · simp [hslot, hchunk, hrun]
      · rw [flatten_cons, hflat, hbytes]
        rw [show hist.length - (total - (engine.lastFlushed + chunk))
            = hist.length - (total - engine.lastFlushed) + chunk by omega, ← drop_drop,
          show target - engine.lastFlushed = chunk + (target - (engine.lastFlushed + chunk)) by
            omega, take_add]
    · have heq : engine.lastFlushed = target := by omega
      rw [if_neg hlt]
      refine ⟨[], ?_, ?_⟩
      · rw [← heq, append_nil]
      · rw [heq, Nat.sub_self]
        rfl

/-- Handing over plain bytes up to a target that has been written. -/
theorem flushPlainUpTo_spec {total : Nat} (target destSize : Nat) (h : Holding engine hist)
    (htotal : total ≤ hist.length) (htarget : target ≤ total) (hdest : target ≤ destSize)
    (hlag : total - engine.lastFlushed ≤ engine.winSize) (hle : engine.lastFlushed ≤ target) :
    ∃ chunks : List (List UInt8),
      engine.flushPlainUpTo target total destSize
          = some { engine with lastFlushed := target, emitted := engine.emitted ++ chunks } ∧
        chunks.flatten
          = (hist.drop (hist.length - (total - engine.lastFlushed))).take
              (target - engine.lastFlushed) := by
  obtain ⟨chunks, hrun, hflat⟩ :=
    flushLoop_spec (target - engine.lastFlushed) h htotal htarget hlag le_rfl hle
  refine ⟨chunks, ?_, hflat⟩
  unfold flushPlainUpTo
  rw [if_neg (by omega), if_neg (by omega)]
  simp [Nat.min_eq_left hdest, Nat.min_eq_left htarget, hrun]

/-! ## Members -/

/-- The engine in the middle of a member, `total` bytes in: its window is the
history, and what it handed over is a prefix of the content. -/
structure InMember (engine : ApplyEngine) (m : Member) (total : Nat) : Prop where
  holding : Holding engine (m.prior ++ m.enc.take total)
  total_le : total ≤ m.enc.length
  flushed_le : engine.lastFlushed ≤ total
  emitted : engine.emitted.flatten = m.orig.take engine.lastFlushed
  lengths : m.enc.length = m.orig.length

/-- Between the tokens of a plain member. -/
structure PlainMode (engine : ApplyEngine) (m : Member) (total : Nat) : Prop
    extends InMember engine m total where
  plain : m.enc = m.orig
  filters : engine.filters = []
  lag : total - engine.lastFlushed < engine.flushCadence

/-- Inside a filtered member: `rem` bytes of the current region are missing. -/
structure RegionMode (engine : ApplyEngine) (m : Member) (total rem : Nat) : Prop
    extends InMember engine m total where
  region : ∃ f : FilterEntry, engine.filters = [f] ∧
    0 < f.blockLength ∧
    f.blockStart = m.prior.length + engine.lastFlushed ∧
    f.blockStart + f.blockLength = m.prior.length + total + rem ∧
    f.blockLength < engine.winSize ∧
    total + rem ≤ m.enc.length ∧
    f.apply ((m.enc.drop engine.lastFlushed).take f.blockLength)
      = (m.orig.drop engine.lastFlushed).take f.blockLength

/-- Between the regions of a filtered member everything is handed over. -/
structure RegionStart (engine : ApplyEngine) (m : Member) (total : Nat) : Prop
    extends InMember engine m total where
  filters : engine.filters = []
  flushed : engine.lastFlushed = total

section Cadence

variable {m : Member} {total : Nat}

/-- The bytes of the current member that are still in the window. -/
theorem pending_bytes {prior enc : List UInt8} {total flushed count : Nat}
    (htotal : total ≤ enc.length) (hflushed : flushed ≤ total) (hcount : flushed + count ≤ total) :
    ((prior ++ enc.take total).drop
        ((prior ++ enc.take total).length - (total - flushed))).take count
      = (enc.drop flushed).take count := by
  have hlen : (prior ++ enc.take total).length - (total - flushed) = prior.length + flushed := by
    rw [length_append, length_take, Nat.min_eq_left htotal]
    omega
  rw [hlen, drop_append, drop_eq_nil_of_le (by omega : prior.length ≤ prior.length + flushed),
    nil_append, Nat.add_sub_cancel_left, drop_take, take_take,
    Nat.min_eq_left (by omega)]

theorem InMember.length (h : InMember engine m total) :
    (m.prior ++ m.enc.take total).length = m.prior.length + total := by
  rw [length_append, length_take, Nat.min_eq_left h.total_le]

variable {destSize : Nat}

theorem plain_flush (flushAll : Bool) (h : InMember engine m total)
    (hplain : m.enc = m.orig) (hfilters : engine.filters = [])
    (hlag : total - engine.lastFlushed ≤ engine.winSize) (hdest : total ≤ destSize) (base : Nat) :
    ∃ engine', engine.flushPending flushAll base total destSize = some engine' ∧
      InMember engine' m total ∧ engine'.filters = [] ∧ engine'.lastFlushed = total ∧
      engine'.winSize = engine.winSize := by
  have hlen := h.length
  have hle := h.flushed_le
  obtain ⟨chunks, hrun, hflat⟩ := flushPlainUpTo_spec total destSize
    (h.holding.requeue []) (by omega) le_rfl hdest hlag hle
  simp only at hrun hflat
  rw [pending_bytes h.total_le hle (by omega)] at hflat
  refine ⟨{ engine with
      filters := [], lastFlushed := total, emitted := engine.emitted ++ chunks },
    ?_, ⟨?_, h.total_le, le_rfl, ?_, h.lengths⟩, rfl, rfl, rfl⟩
  · unfold flushPending
    rw [hfilters, flushQueue]
    simp only [bind_eq_bind, bind_some, foldl_nil, ite_self]
    exact hrun
  · exact (h.holding.requeue []).reflush _ _
  · simp only [flatten_append, h.emitted, hflat, hplain]
    rw [← take_add, Nat.add_sub_cancel' h.flushed_le]

/-- The flush check of a plain member. -/
theorem plain_cadence (h : InMember engine m total) (hplain : m.enc = m.orig)
    (hfilters : engine.filters = []) (hlag : total - engine.lastFlushed ≤ engine.winSize)
    (hdest : total ≤ destSize) (base : Nat) :
    ∃ engine', engine.cadence base total destSize = some engine' ∧
      PlainMode engine' m total ∧ engine'.winSize = engine.winSize := by
  have hcadence : 0 < engine.flushCadence := by
    have := h.holding.size
    unfold flushCadence
    omega
  have hnone : engine.hasCompletedFilter base total = false := by
    unfold hasCompletedFilter
    rw [hfilters]
  unfold cadence
  by_cases hdue : total - engine.lastFlushed < engine.flushCadence
  · rw [if_pos ⟨hdue, by rw [hnone]; decide⟩]
    exact ⟨engine, rfl, ⟨h, hplain, hfilters, hdue⟩, rfl⟩
  · rw [if_neg (fun hno => hdue hno.1)]
    obtain ⟨engine', hrun, hmember, hempty, hflushed, hwin⟩ :=
      plain_flush false h hplain hfilters hlag hdest base
    refine ⟨engine', hrun, ⟨hmember, hplain, hempty, ?_⟩, hwin⟩
    rw [hflushed, Nat.sub_self]
    unfold flushCadence at hcadence ⊢
    rwa [hwin]

/-- An incomplete region keeps everything behind its start in the window. -/
theorem region_wait {rem : Nat} (h : RegionMode engine m total rem) (hrem : 0 < rem)
    (hdest : total ≤ destSize) :
    ∃ engine', engine.cadence m.prior.length total destSize = some engine' ∧
      RegionMode engine' m total rem ∧ engine'.winSize = engine.winSize := by
  obtain ⟨f, hfilters, hpos, hstart, hend, hwin, hfit, happly⟩ := h.region
  have hle := h.flushed_le
  have hlen := h.length
  have hopen : regionComplete f (m.prior.length + total) = false := by
    unfold regionComplete
    simp only [Bool.and_eq_false_iff, decide_eq_false_iff_not]
    omega
  have hlocal : localRegionStart f m.prior.length = engine.lastFlushed := by
    unfold localRegionStart
    split <;> omega
  unfold cadence
  split
  · exact ⟨engine, rfl, h, rfl⟩
  · obtain ⟨chunks, hrun, hflat⟩ := flushPlainUpTo_spec engine.lastFlushed destSize
      h.holding (by omega) hle (by omega) (by omega) le_rfl
    refine ⟨{ engine with emitted := engine.emitted ++ chunks }, ?_,
      ⟨⟨?_, h.total_le, hle, ?_, h.lengths⟩, ?_⟩, rfl⟩
    · unfold flushPending
      rw [hfilters, flushQueue, hopen]
      simp only [bind_eq_bind, Bool.false_eq_true, if_false, bind_some, foldl_cons, hlocal,
        Nat.min_eq_right hle]
      rw [← hfilters]
      exact hrun
    · exact h.holding.reflush _ _
    · rw [Nat.sub_self, take_zero] at hflat
      simp [hflat, h.emitted]
    · exact ⟨f, hfilters, hpos, hstart, hend, hwin, hfit, happly⟩

/-- A complete region is handed over as a whole. -/
theorem region_emit {flushAll : Bool} (h : RegionMode engine m total 0) (hdest : total ≤ destSize) :
    ∃ engine', engine.flushPending flushAll m.prior.length total destSize = some engine' ∧
      RegionStart engine' m total ∧ engine'.winSize = engine.winSize := by
  obtain ⟨f, hfilters, hpos, hstart, hend, hwin, hfit, happly⟩ := h.region
  have hle := h.flushed_le
  have hlen := h.length
  have hcomplete : regionComplete f (m.prior.length + total) = true := by
    unfold regionComplete
    simp only [Bool.and_eq_true, decide_eq_true_eq]
    omega
  have hlocal : localRegionStart f m.prior.length = engine.lastFlushed := by
    unfold localRegionStart
    split <;> omega
  have hback : m.prior.length + total - f.blockStart = total - engine.lastFlushed := by omega
  have hcount : f.blockLength = total - engine.lastFlushed := by omega
  -- The region is read from the ring and transformed.
  have hbytes := h.holding.ringBytes_back (total - engine.lastFlushed) f.blockLength
    (by omega) (by omega) (by omega)
  rw [pending_bytes h.total_le hle (by omega)] at hbytes
  have hemit : engine.emitRegion f m.prior.length total destSize
      = some { engine with
          lastFlushed := total
          emitted := engine.emitted
            ++ [(m.orig.drop engine.lastFlushed).take f.blockLength] } := by
    unfold emitRegion
    rw [if_neg (by omega : ¬ f.blockStart < m.prior.length), if_neg (by omega),
      if_neg (by omega), if_neg (by omega), if_neg (by simp), if_neg (by omega), hback, hbytes,
      happly]
    congr 2
    omega
  generalize hout : engine.emitted ++ [(m.orig.drop engine.lastFlushed).take f.blockLength]
    = emitted at hemit
  have hflushed : emitted.flatten = m.orig.take total := by
    rw [← hout, flatten_append, h.emitted, flatten_singleton, hcount, ← take_add,
      Nat.add_sub_cancel' hle]
  have hholding : Holding { engine with
      filters := [], lastFlushed := total, emitted := emitted } (m.prior ++ m.enc.take total) :=
    (h.holding.requeue []).reflush _ _
  obtain ⟨chunks, hrun, hflat⟩ := flushPlainUpTo_spec total destSize hholding
    (by omega) le_rfl hdest (by simp) le_rfl
  rw [Nat.sub_self, take_zero] at hflat
  refine ⟨{ engine with
      filters := [], lastFlushed := total, emitted := emitted ++ chunks }, ?_,
    ⟨⟨?_, h.total_le, le_rfl, ?_, h.lengths⟩, rfl, rfl⟩, rfl⟩
  · unfold flushPending
    rw [hfilters, flushQueue, hcomplete]
    simp only [bind_eq_bind, if_true, hlocal, lt_irrefl, if_false, bind_some, hemit,
      flushQueue, foldl_nil, ite_self]
    exact hrun
  · exact hholding.reflush _ _
  · simp [hflushed, hflat]

/-- The flush check at the end of a region. -/
theorem region_done (h : RegionMode engine m total 0) (hdest : total ≤ destSize) :
    ∃ engine', engine.cadence m.prior.length total destSize = some engine' ∧
      RegionStart engine' m total ∧ engine'.winSize = engine.winSize := by
  obtain ⟨f, hfilters, hpos, hstart, hend, -⟩ := h.region
  have hcomplete : engine.hasCompletedFilter m.prior.length total = true := by
    unfold hasCompletedFilter regionComplete
    rw [hfilters]
    simp only [Bool.and_eq_true, decide_eq_true_eq]
    omega
  unfold cadence
  rw [if_neg (fun hno => hno.2 hcomplete)]
  exact region_emit h hdest

end Cadence

/-- Bytes written behind the member position keep it in step. -/
theorem InMember.extend {engine' : ApplyEngine} {m : Member} {pos len : Nat}
    (h : InMember engine m pos) (hsame : SameQueue engine engine')
    (hholding : Holding engine' (m.prior ++ m.enc.take (pos + len)))
    (hfit : pos + len ≤ m.enc.length) : InMember engine' m (pos + len) := by
  have hle := h.flushed_le
  refine ⟨hholding, hfit, ?_, ?_, h.lengths⟩
  · rw [hsame.lastFlushed]
    omega
  · rw [hsame.lastFlushed, hsame.emitted]
    exact h.emitted

end ApplyEngine

end OpenRar.Compress
