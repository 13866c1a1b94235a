import OpenRar.Compress.ParserSoundness
import OpenRar.Format.HeaderRoundTrip

/-!
# The plan of the window

From the requested dictionary size to the window that the header declares and the window
on which the encoder runs.  The declared window lies on the grid of the header, so that
the reader finds it again, and it covers every distance of the encoder.  A window below
the grid has no code of its own: the header then declares the smallest one.
-/

namespace OpenRar.Compress

open OpenRar.Core OpenRar.Format

/-! ## Resolving a request -/

/-- `DICT_SIZE_AUTO`. -/
def dictSizeAuto : Nat := 2 ^ 64 - 1

def defaultDictSizeForMethod : Nat → Nat
  | 0 => 0x20000
  | 1 => 0x80000
  | 2 => 0x100000
  | 3 => 0x800000
  | 4 => 0x1000000
  | 5 => 0x4000000
  | _ => 0x800000

def autoDictCeilingForMethod : Nat → Nat
  | 0 => 0x20000
  | 1 => 0x80000
  | 2 => 0x200000
  | 3 => 0x4000000
  | 4 => 0x4000000
  | 5 => 0x10000000
  | _ => 0x4000000

/-- `snap_window_to_fci_grid`: a power of two and a fraction of it in 32nds.  The loop is
the one of the header writer. -/
def snapWindowToFciGrid (win : Nat) : Nat :=
  if win < 0x20000 then win
  else
    let (pow2, bits) := dictLoop win 23 23 0x20000 0
    if win ≤ pow2 then pow2
    else if bits = 23 then pow2 + pow2 / 32 * 31
    else pow2 + pow2 / 32 * ((win - pow2) * 32 / pow2)

/-- `resolve_auto_dict`.  No window of a method passes 256 MiB, so the doublings are few. -/
def resolveAutoDict (method inputSize : Nat) : Nat :=
  let default := defaultDictSizeForMethod method
  if inputSize = 0 then default
  else if inputSize < default then
    snapWindowToFciGrid (Compressor50.doubleUntil inputSize default 64 0x20000)
  else
    snapWindowToFciGrid
      (Compressor50.doubleUntil inputSize (autoDictCeilingForMethod method) 64 default)

/-- `resolve_dict_window_size`: automatic, a power of two by its number, the default of the
method, or exact bytes. -/
def resolveDictWindowSize (dictSize method inputSize : Nat) : Nat :=
  if dictSize = dictSizeAuto then resolveAutoDict method inputSize
  else if 1 ≤ dictSize ∧ dictSize ≤ 15 then 0x20000 <<< (dictSize - 1)
  else if dictSize = 0 then
    if inputSize > 0 then
      Compressor50.doubleUntil inputSize (defaultDictSizeForMethod method) 64 0x20000
    else defaultDictSizeForMethod method
  else dictSize

/-- `lz_window_for_input`: the window of the encoder for an input of known size. -/
def lzWindowForInput (declared inputBytes : Nat) : Nat :=
  if declared ≤ 0x20000 ∨ inputBytes = 0 then declared
  else min (Compressor50.doubleUntil inputBytes declared 64 0x20000) declared

/-- The window that a request declares: on the grid, and no larger than the reader
accepts. -/
def declaredWindow (dictSize method inputSize : Nat) : Nat :=
  min (snapWindowToFciGrid (resolveDictWindowSize dictSize method inputSize)) rarDictMaxV1

/-- The version that `prepare_add_file` declares: only the later one can say windows that
are large or no power of two. -/
def unpVerFor (method winSize : Nat) : Nat :=
  if method > 0 ∧ (winSize > 1024 * 1024 * 1024 ∨ winSize &&& (winSize - 1) ≠ 0) then 1 else 0

/-! ## The grid -/

/-- The point of the grid with power `n` and fraction `f`. -/
def gridPoint (n f : Nat) : Nat := 0x1000 * 2 ^ n * (32 + f)

theorem gridPoint_split (n f : Nat) :
    gridPoint n f = 0x20000 * 2 ^ n + 0x1000 * 2 ^ n * f := by
  unfold gridPoint
  ring

theorem gridPoint_eq (n f : Nat) :
    gridPoint n f = 0x20000 * 2 ^ n + 0x20000 * 2 ^ n / 32 * f := by
  rw [show 0x20000 * 2 ^ n / 32 = 0x1000 * 2 ^ n by omega, gridPoint_split]

variable {n f win method : Nat}

theorem gridPoint_bounds (hf : f ≤ 31) :
    0x20000 * 2 ^ n ≤ gridPoint n f ∧ gridPoint n f < 0x40000 * 2 ^ n := by
  have hpos := Nat.one_le_two_pow (n := n)
  have hfract : 0x1000 * 2 ^ n * f ≤ 0x1000 * 2 ^ n * 31 := Nat.mul_le_mul_left _ hf
  have hsplit := gridPoint_split n f
  omega

/-- The loop stops at the power below the window, or at the last power. -/
theorem dictLoop_spec (fuel bits : Nat) (hfuel : bits + fuel = 23)
    (hlow : 0x20000 * 2 ^ bits ≤ win) :
    ∃ n ≤ 23, dictLoop win 23 fuel (0x20000 * 2 ^ bits) bits = (0x20000 * 2 ^ n, n) ∧
      0x20000 * 2 ^ n ≤ win ∧ (n = 23 ∨ win < 0x40000 * 2 ^ n) := by
  induction fuel generalizing bits with
  | zero =>
    obtain rfl : bits = 23 := by omega
    exact ⟨23, le_rfl, rfl, hlow, Or.inl rfl⟩
  | succ fuel ih =>
    have hdouble : 2 * (0x20000 * 2 ^ bits) = 0x20000 * 2 ^ (bits + 1) := by
      ring
    rw [dictLoop, hdouble]
    by_cases hmore : 0x20000 * 2 ^ (bits + 1) ≤ win
    · rw [if_pos ⟨hmore, by omega⟩]
      exact ih (bits + 1) (by omega) hmore
    · rw [if_neg (fun hboth => hmore hboth.1)]
      exact ⟨bits, by omega, rfl, hlow, Or.inr (by omega)⟩

/-- **What snapping does** to a window that is not below the grid: it goes to a point of
the grid, down unless the window is beyond the last power. -/
theorem snapWindowToFciGrid_spec (h : 0x20000 ≤ win) :
    ∃ n f, n ≤ 23 ∧ f ≤ 31 ∧ (n = 23 → f = 0 ∨ f = 31) ∧
      snapWindowToFciGrid win = gridPoint n f ∧
      (gridPoint n f ≤ win ∨ rarDictMaxV1 < win) := by
  obtain ⟨n, hn, hloop, hlow, hhigh⟩ := dictLoop_spec 23 0 rfl (show 0x20000 * 2 ^ 0 ≤ win from h)
  rw [pow_zero, Nat.mul_one] at hloop
  unfold snapWindowToFciGrid
  rw [if_neg (by omega), hloop]
  dsimp only
  by_cases hexact : win ≤ 0x20000 * 2 ^ n
  · -- A power of two.
    rw [if_pos hexact]
    have hpoint : 0x20000 * 2 ^ n = gridPoint n 0 := by
      rw [gridPoint_eq]
      omega
    exact ⟨n, 0, hn, by omega, fun _ => Or.inl rfl, hpoint, Or.inl (by omega)⟩
  rw [if_neg hexact]
  by_cases hlast : n = 23
  · -- Beyond the last power.
    subst hlast
    exact ⟨23, 31, le_rfl, le_rfl, fun _ => Or.inr rfl, (gridPoint_eq 23 31).symm,
      Or.inr (by unfold rarDictMaxV1 rarDictBase; omega)⟩
  · -- Between two powers: the fraction is rounded down.
    have hfract : (win - 0x20000 * 2 ^ n) * 32 / (0x20000 * 2 ^ n) ≤ 31 := by
      apply Nat.le_of_lt_succ
      apply Nat.div_lt_of_lt_mul
      omega
    have hround := Nat.div_mul_le_self ((win - 0x20000 * 2 ^ n) * 32) (0x20000 * 2 ^ n)
    rw [if_neg hlast]
    refine ⟨n, _, hn, hfract, fun habsurd => absurd habsurd hlast, (gridPoint_eq n _).symm,
      Or.inl ?_⟩
    generalize (win - 0x20000 * 2 ^ n) * 32 / (0x20000 * 2 ^ n) = f at hround ⊢
    have hscale : f * (0x20000 * 2 ^ n) = 32 * (0x1000 * 2 ^ n * f) := by ring
    have hsplit := gridPoint_split n f
    omega

theorem snapWindowToFciGrid_gridPoint (hn : n ≤ 23) (hf : f ≤ 31)
    (hlast : n = 23 → f = 0 ∨ f = 31) : snapWindowToFciGrid (gridPoint n f) = gridPoint n f := by
  obtain ⟨hlow, hhigh⟩ := gridPoint_bounds (n := n) hf
  have hsplit := gridPoint_split n f
  have hdiv : 0x20000 * 2 ^ n / 32 = 0x1000 * 2 ^ n := by omega
  unfold snapWindowToFciGrid
  rw [if_neg (by omega), dictLoop_start hn le_rfl hlow hhigh]
  dsimp only
  rw [hdiv]
  by_cases hexact : gridPoint n f ≤ 0x20000 * 2 ^ n
  · rw [if_pos hexact]
    omega
  · rw [if_neg hexact]
    by_cases hlastPower : n = 23
    · rcases hlast hlastPower with hzero | hfull
      · rw [hzero] at hsplit hexact
        omega
      · rw [if_pos hlastPower, hsplit, hfull]
    · have hquot : (gridPoint n f - 0x20000 * 2 ^ n) * 32 / (0x20000 * 2 ^ n) = f := by
        rw [hsplit, Nat.add_sub_cancel_left,
          show 0x1000 * 2 ^ n * f * 32 = f * (0x20000 * 2 ^ n) by ring]
        exact Nat.mul_div_cancel _ (by omega)
      rw [if_neg hlastPower, hquot, hsplit]

theorem snapWindowToFciGrid_idem (win : Nat) :
    snapWindowToFciGrid (snapWindowToFciGrid win) = snapWindowToFciGrid win := by
  by_cases hsmall : win < 0x20000
  · rw [show snapWindowToFciGrid win = win from if_pos hsmall]
    exact if_pos hsmall
  · obtain ⟨n, f, hn, hf, hlast, hsnap, -⟩ := snapWindowToFciGrid_spec (Nat.le_of_not_lt hsmall)
    rw [hsnap]
    exact snapWindowToFciGrid_gridPoint hn hf hlast

theorem snapWindowToFciGrid_le (hlow : 0x20000 ≤ win) (hhigh : win ≤ rarDictMaxV1) :
    snapWindowToFciGrid win ≤ win := by
  obtain ⟨n, f, -, -, -, hsnap, hdown⟩ := snapWindowToFciGrid_spec hlow
  rw [hsnap]
  exact hdown.resolve_right (by omega)

/-! ## The declared window -/

theorem defaultDictSizeForMethod_low (method : Nat) :
    0x20000 ≤ defaultDictSizeForMethod method := by
  unfold defaultDictSizeForMethod
  split <;> decide

theorem snapWindowToFciGrid_pos (h : 0 < win) : 0 < snapWindowToFciGrid win := by
  by_cases hsmall : win < 0x20000
  · rw [show snapWindowToFciGrid win = win from if_pos hsmall]
    exact h
  · obtain ⟨n, f, -, hf, -, hsnap, -⟩ := snapWindowToFciGrid_spec (Nat.le_of_not_lt hsmall)
    have hlow := (gridPoint_bounds (n := n) hf).1
    have hpos := Nat.one_le_two_pow (n := n)
    omega

section

variable (dictSize method inputSize : Nat)

theorem resolveDictWindowSize_pos : 0 < resolveDictWindowSize dictSize method inputSize := by
  have hdefault := defaultDictSizeForMethod_low method
  have hgrow : ∀ bound limit size, 0 < size →
      0 < Compressor50.doubleUntil bound limit 64 size :=
    fun bound limit size hsize =>
      lt_of_lt_of_le hsize (Compressor50.le_doubleUntil bound limit 64 size)
  unfold resolveDictWindowSize
  split
  · unfold resolveAutoDict
    dsimp only
    split
    · omega
    split
    · exact snapWindowToFciGrid_pos (hgrow _ _ _ (by decide))
    · exact snapWindowToFciGrid_pos (hgrow _ _ _ (by omega))
  split
  · rw [Nat.shiftLeft_eq]
    positivity
  split
  · split
    · exact hgrow _ _ _ (by decide)
    · omega
  · omega

theorem declaredWindow_pos : 0 < declaredWindow dictSize method inputSize :=
  lt_min (snapWindowToFciGrid_pos (resolveDictWindowSize_pos _ _ _)) (by decide)

theorem declaredWindow_grid : declaredWindow dictSize method inputSize < 0x20000 ∨
      ∃ n f, n ≤ 23 ∧ f ≤ 31 ∧ declaredWindow dictSize method inputSize = gridPoint n f ∧
        gridPoint n f ≤ rarDictMaxV1 := by
  unfold declaredWindow
  generalize resolveDictWindowSize dictSize method inputSize = win
  by_cases hsmall : win < 0x20000
  · refine Or.inl (lt_of_le_of_lt (Nat.min_le_left _ _) ?_)
    rw [show snapWindowToFciGrid win = win from if_pos hsmall]
    exact hsmall
  · obtain ⟨n, f, hn, hf, -, hsnap, -⟩ := snapWindowToFciGrid_spec (Nat.le_of_not_lt hsmall)
    refine Or.inr ?_
    rw [hsnap]
    rcases le_total (gridPoint n f) rarDictMaxV1 with hle | hge
    · exact ⟨n, f, hn, hf, Nat.min_eq_left hle, hle⟩
    · exact ⟨23, 0, le_rfl, by omega, Nat.min_eq_right hge, le_rfl⟩

end

/-- The version rule puts every point of the grid on the grid of its version. -/
theorem onGrid_unpVerFor (hmethod : 1 ≤ method) (hn : n ≤ 23) (hf : f ≤ 31)
    (hmax : gridPoint n f ≤ rarDictMaxV1) :
    OnGrid (unpVerFor method (gridPoint n f)) (gridPoint n f) := by
  obtain ⟨hlow, hhigh⟩ := gridPoint_bounds (n := n) hf
  unfold unpVerFor
  split
  · exact OnGrid.rar7 n f rfl hn hf (gridPoint_eq n f) hmax
  · next hplain =>
    -- A power of two of at most 1 GiB: its exponent is that of the grid.
    have hpower : gridPoint n f &&& (gridPoint n f - 1) = 0 := by
      by_contra hne
      exact hplain ⟨hmethod, Or.inr hne⟩
    have hsmall : gridPoint n f ≤ 1024 * 1024 * 1024 := by
      by_contra hlarge
      exact hplain ⟨hmethod, Or.inl (by omega)⟩
    obtain ⟨k, hk⟩ := (Nat.and_sub_one_eq_zero_iff_isPowerOfTwo (by omega)).mp hpower
    have hbase : 0x20000 * 2 ^ n = 2 ^ (n + 17) := by
      rw [pow_add]
      omega
    have hnext : 0x40000 * 2 ^ n = 2 ^ (n + 18) := by
      rw [pow_add]
      omega
    have hkn : k = n + 17 := by
      have hge : n + 17 ≤ k := by
        rw [hk, hbase] at hlow
        exact (Nat.pow_le_pow_iff_right (by decide)).mp hlow
      have hlt : k < n + 18 := by
        rw [hk, hnext] at hhigh
        exact (Nat.pow_lt_pow_iff_right (by decide)).mp hhigh
      omega
    refine OnGrid.rar5 n rfl ?_ (by rw [hk, hkn, ← hbase]; rfl)
    have hexp : 2 ^ (n + 17) ≤ 2 ^ 30 := by
      rw [← hkn, ← hk]
      exact hsmall
    have := (Nat.pow_le_pow_iff_right (by decide)).mp hexp
    omega

/-! ## The header -/

variable {b : FileBlock}

/-- Below the grid the header says the same as for the smallest window. -/
theorem encodeCompInfo_small {c : Compression} (hsmall : c.winSize < 0x20000) :
    encodeCompInfo c = encodeCompInfo { c with winSize := 0x20000 } := by
  have hfields : dictFields c = (0, 0) := by
    unfold dictFields
    rw [if_neg (by omega)]
  have hsmallest : dictFields { c with winSize := 0x20000 } = (0, 0) := by
    unfold dictFields
    dsimp only
    rw [if_pos le_rfl, dictLoop_start (Nat.zero_le _) (by split <;> decide) (by decide) (by decide)]
    exact if_neg (by simp)
  unfold encodeCompInfo
  rw [hfields, hsmallest]

/-- A header declares a window: its version is that of the rule, its tables fit the
version, and its other fields are well formed. -/
structure Declares (b : FileBlock) (method winSize : Nat) : Prop where
  coded : b.comp.method = method
  window : b.comp.winSize = winSize
  version : b.comp.unpVer = unpVerFor method winSize
  flavour : b.comp.extraDist = true → b.comp.unpVer = 1
  others : WellFormed { b with comp := {} }

/-- A block with the window of the grid that the header says. -/
theorem Declares.wellFormed {winSize point : Nat} (h : Declares b method winSize)
    (hmethod : method ≤ 5) (hgrid : OnGrid b.comp.unpVer point) :
    WellFormed { b with comp := { b.comp with winSize := point } } := by
  have hversion : b.comp.unpVer ≤ 1 := by
    rw [h.version]
    unfold unpVerFor
    split <;> decide
  have hcomp : CompWellFormed { b.comp with winSize := point } :=
    ⟨h.coded ▸ hmethod, hversion, h.flavour, Or.inr hgrid⟩
  exact { h.others with comp := hcomp }

/-- **The reader finds the declared window**, or the smallest of the grid if the declared
one is below it. -/
theorem Declares.parse {dictSize inputSize : Nat}
    (h : Declares b method (declaredWindow dictSize method inputSize))
    (hmethod : 1 ≤ method ∧ method ≤ 5) {extraHeadFlags : Nat} {fixedPackSizeVint : Bool}
    (hlen : (HeaderWriter.fileBody b extraHeadFlags fixedPackSizeVint).length < 2 ^ 64) :
    (HeaderReader.parseFileHeader (HeaderWriter.fileBody b extraHeadFlags fixedPackSizeVint)).map
        (fun p => p.comp.winSize)
      = some (max (declaredWindow dictSize method inputSize) 0x20000) := by
  set declared := declaredWindow dictSize method inputSize with hdeclared
  -- The point of the grid that the word of the header says.
  have hpoint : OnGrid b.comp.unpVer (max declared 0x20000) ∧
      encodeCompInfo b.comp = encodeCompInfo { b.comp with winSize := max declared 0x20000 } := by
    rcases declaredWindow_grid dictSize method inputSize with hsmall | ⟨n, f, hn, hf, hwin, hmax⟩
    · rw [← hdeclared] at hsmall
      rw [max_eq_right hsmall.le]
      refine ⟨?_, encodeCompInfo_small (h.window.trans_lt hsmall)⟩
      rw [h.version]
      unfold unpVerFor
      split
      · exact OnGrid.rar7 0 0 rfl (by decide) (by decide) rfl (by decide)
      · exact OnGrid.rar5 0 rfl (by decide) rfl
    · rw [← hdeclared] at hwin
      have hlow := (gridPoint_bounds (n := n) hf).1
      have hpos := Nat.one_le_two_pow (n := n)
      rw [max_eq_left (by omega)]
      refine ⟨?_, ?_⟩
      · rw [h.version, hwin]
        exact onGrid_unpVerFor hmethod.1 hn hf hmax
      · rw [← h.window]
  obtain ⟨hgrid, hword⟩ := hpoint
  have hformed := h.wellFormed hmethod.2 hgrid
  set b' : FileBlock := { b with comp := { b.comp with winSize := max declared 0x20000 } }
  have hbody : HeaderWriter.fileBody b extraHeadFlags fixedPackSizeVint
      = HeaderWriter.fileBody b' extraHeadFlags fixedPackSizeVint := by
    unfold HeaderWriter.fileBody
    rw [hword]
    rfl
  rw [hbody] at hlen ⊢
  rw [parseFileHeader_fileBody hformed.toBounded hlen,
    hformed.parseArea ((fileBody_parts_lt hlen).2)]
  show some (if b.comp.method = 0 ∧ max declared 0x20000 < 0x40000 then 0
    else max declared 0x20000) = _
  rw [if_neg (by rw [h.coded]; omega)]

/-! ## The encoder -/

theorem lzWindowForInput_le (declared inputBytes : Nat) :
    lzWindowForInput declared inputBytes ≤ declared := by
  unfold lzWindowForInput
  split
  · exact le_rfl
  · exact Nat.min_le_right _ _

theorem lzWindowForInput_pos {declared : Nat} (h : 0 < declared) (inputBytes : Nat) :
    0 < lzWindowForInput declared inputBytes := by
  unfold lzWindowForInput
  split
  · exact h
  · exact lt_min (lt_of_lt_of_le (by decide) (Compressor50.le_doubleUntil _ _ _ _)) h

namespace Compressor50

open Session

/-- The window with which a session is started; a worker may have a smaller one. -/
def Session.StartedWith (winSize : Nat) : Session → Prop
  | buffer _ _ _ size _ => size = winSize
  | worker _ _ _ size _ _ _ => size ≤ winSize
  | stream start _ => Opens winSize start

theorem reachOf_dist_le (winSize : Nat) (cfg : FilterConfig) :
    (reachOf winSize cfg).dist ≤ winSize :=
  le_trans (Nat.min_le_left _ _) (Nat.min_le_left _ _)

theorem Session.StartedWith.maxDist_le {sess : Session} {winSize : Nat}
    (h : sess.StartedWith winSize) (hpos : 0 < winSize) : sess.start.maxDist ≤ winSize := by
  cases sess with
  | buffer host src method size cfg =>
    obtain rfl : size = winSize := h
    calc (bufferPacker host src method size cfg).maxDist
      _ = (reachOf (compWinSize src.length size) cfg).dist :=
          (bufferPacker_params host src method size cfg).2.1
      _ ≤ compWinSize src.length size := reachOf_dist_le _ _
      _ ≤ size := (compWinSize_bounds src.length hpos).2
  | worker object links method size seed data lastBlock =>
    exact le_trans (reachOf_dist_le size {}) h
  | stream start pieces => exact h.begun.2.2 hpos

end Compressor50

/-! ## The plan -/

open Compressor50 in
/-- **The declared window covers every distance.**  The reader finds the window that a
request declares, or the smallest of the grid if it is below; snapping is idempotent and
never increases a window that the header can carry; and no session started on the window of
the encoder uses a distance above the declared one. -/
theorem declared_window_covers (dictSize method inputSize : Nat)
    (hmethod : 1 ≤ method ∧ method ≤ 5) :
    (∀ (b : FileBlock) (extraHeadFlags : Nat) (fixedPackSizeVint : Bool),
      Declares b method (declaredWindow dictSize method inputSize) →
      (HeaderWriter.fileBody b extraHeadFlags fixedPackSizeVint).length < 2 ^ 64 →
      (HeaderReader.parseFileHeader
          (HeaderWriter.fileBody b extraHeadFlags fixedPackSizeVint)).map (fun p => p.comp.winSize)
        = some (max (declaredWindow dictSize method inputSize) 0x20000)) ∧
    (∀ win, snapWindowToFciGrid (snapWindowToFciGrid win) = snapWindowToFciGrid win) ∧
    (∀ win, 0x20000 ≤ win → win ≤ rarDictMaxV1 → snapWindowToFciGrid win ≤ win) ∧
    ∀ (n : Nat) (sess : Session), sess.Legal →
      sess.StartedWith (lzWindowForInput (declaredWindow dictSize method inputSize) n) →
      ∃ type channels, sess.Decides type channels ∧
        (∀ s ∈ sess.states, SoundWithin (declaredWindow dictSize method inputSize)
          (sess.member type channels) sess.start s) ∧
        ∀ c, sess.result = some c → SoundWithin (declaredWindow dictSize method inputSize)
          (sess.member type channels) sess.start c := by
  refine ⟨fun b _ _ hdeclares hlen => hdeclares.parse hmethod hlen, snapWindowToFciGrid_idem,
    fun win hlow hhigh => snapWindowToFciGrid_le hlow hhigh, fun n sess hlegal hstarted => ?_⟩
  have hpos := lzWindowForInput_pos (declaredWindow_pos dictSize method inputSize) n
  have hdist := (hstarted.maxDist_le hpos).trans (lzWindowForInput_le _ n)
  obtain ⟨type, channels, hruns⟩ := hlegal.runs
  exact ⟨type, channels, hruns.filter, fun s hs => (hruns.states s hs).mono hdist,
    fun c hc => (hruns.finish c hc).1.mono hdist⟩

/-- A compressed file with the given window. -/
def windowBlock (winSize unpVer : Nat) : FileBlock where
  packSize := 0
  comp := { method := 3, winSize := winSize, unpVer := unpVer }
  fileName := [97]

theorem noWindow_wellFormed : CompWellFormed {} where
  method := by decide
  version := by decide
  flavour := by decide
  window := Or.inl ⟨rfl, rfl⟩

theorem windowBlock_declares {winSize unpVer : Nat} (h : unpVer = unpVerFor 3 winSize) :
    Declares (windowBlock winSize unpVer) 3 winSize where
  coded := rfl
  window := rfl
  version := h
  flavour := by simp [windowBlock]
  others := { storedBlock_wellFormed with comp := noWindow_wellFormed }

/-- The request of 24 MiB and a bit, which is no power of two. -/
theorem declared_window_covers_fraction :
    declaredWindow 0x1812345 3 0 = 0x1800000 ∧
      Declares (windowBlock 0x1800000 1) 3 0x1800000 ∧
      (HeaderReader.parseFileHeader (HeaderWriter.fileBody (windowBlock 0x1800000 1) 0 false)).map
        (fun p => p.comp.winSize) = some 0x1800000 := by
  have hwin : declaredWindow 0x1812345 3 0 = 0x1800000 := by decide
  have hdeclares : Declares (windowBlock 0x1800000 1) 3 0x1800000 :=
    windowBlock_declares (by decide)
  refine ⟨hwin, hdeclares, ?_⟩
  have hparse := (declared_window_covers 0x1812345 3 0 (by decide)).1 (windowBlock 0x1800000 1) 0
    false (hwin.symm ▸ hdeclares) (by decide)
  exact hparse

/-- A request of 64 KiB is below the grid: the reader finds 128 KiB. -/
theorem small_window_not_kept :
    declaredWindow 0x10000 3 0 = 0x10000 ∧ Declares (windowBlock 0x10000 0) 3 0x10000 ∧
      (HeaderReader.parseFileHeader (HeaderWriter.fileBody (windowBlock 0x10000 0) 0 false)).map
        (fun p => p.comp.winSize) = some 0x20000 :=
  ⟨by decide, windowBlock_declares (by decide), by decide⟩

end OpenRar.Compress
