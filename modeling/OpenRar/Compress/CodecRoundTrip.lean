import OpenRar.Compress.EncoderRuns
import OpenRar.Compress.EncoderSessions

/-!
# Round trip of one buffer

`compress_buffer` succeeds on every input, and a fresh decoder with a window at least
as large as the requested one gives the input back.

The decoder refuses windows above 64 GiB, and the encoder never looks back further
than that, so the requested window counts only up to this limit.
-/

namespace OpenRar.Compress

open OpenRar.Core List Decompressor50

namespace Compressor50

/-! ## Windows -/

theorem doubleUntil_le (bound limit fuel size : Nat) :
    doubleUntil bound limit fuel size ≤ max size (2 * bound - 2) := by
  induction fuel generalizing size with
  | zero => exact Nat.le_max_left _ _
  | succ fuel ih =>
    unfold doubleUntil
    split
    · next hless =>
      have := ih (2 * size)
      omega
    · exact Nat.le_max_left _ _

theorem le_doubleUntil (bound limit fuel size : Nat) :
    size ≤ doubleUntil bound limit fuel size := by
  induction fuel generalizing size with
  | zero => exact le_rfl
  | succ fuel ih =>
    unfold doubleUntil
    split
    · exact le_trans (by omega) (ih (2 * size))
    · exact le_rfl

/-- The window that a decoder needs for a request. -/
def neededWindow (winSize : Nat) : Nat := max (min winSize 0x1000000000) 0x10000

/-- The reach of a session: its largest distance, the size above its filter regions,
and the channels that its filter settings allow. -/
def reachOf (winSize : Nat) (cfg : FilterConfig) : Reach where
  dist := min (normalizeWindowSize winSize).2 (4 * 1024 * 1024 * 1024)
  ring := filterMaxChunk (normalizeWindowSize winSize).1 + 1
  channels := max 32 cfg.deltaChannels

theorem normalizeWindowSize_low (winSize : Nat) : 0x10000 ≤ (normalizeWindowSize winSize).1 :=
  Nat.le_max_left _ _

/-- A decoder with the window of the request decodes the session. -/
theorem reachOf_within {winSize window : Nat} {cfg : FilterConfig} (hpos : 0 < winSize)
    (hcfg : cfg.Admissible) (hwindow : neededWindow winSize ≤ window) :
    (reachOf winSize cfg).Within window := by
  have hretain : min 0x1000000000 (sizeMax - 0x1000000) = 0x1000000000 := by decide
  have hdouble := doubleUntil_le (min winSize 0x1000000000) 0x1000000000 64 0x10000
  unfold neededWindow at hwindow
  unfold reachOf normalizeWindowSize
  rw [hretain]
  dsimp only
  rw [if_neg (by omega)]
  refine ⟨by dsimp only; omega, ?_, max_le le_rfl hcfg⟩
  dsimp only
  unfold filterMaxChunk
  split_ifs <;> omega

theorem compWinSize_bounds (srcSize : Nat) {winSize : Nat} (hpos : 0 < winSize) :
    0 < compWinSize srcSize winSize ∧ compWinSize srcSize winSize ≤ winSize := by
  unfold compWinSize
  split
  · refine ⟨?_, Nat.min_le_left _ _⟩
    have := le_doubleUntil srcSize (min winSize (2 ^ 63)) 64 0x20000
    omega
  · exact ⟨hpos, Nat.le_refl _⟩

theorem neededWindow_mono {a b : Nat} (h : a ≤ b) : neededWindow a ≤ neededWindow b := by
  unfold neededWindow
  omega

/-! ## The packer of one buffer -/

variable {m : Member} {win : Reach} {c : Compressor50}

/-- A packer that has not coded anything yet. -/
structure Fresh (win : Reach) (c : Compressor50) : Prop where
  method : 1 ≤ c.method ∧ c.method ≤ 5
  maxDist : c.maxDist ≤ win.dist ∧ c.maxDist ≤ 2 ^ 32
  window : 0x10000 ≤ c.winSize ∧ filterMaxChunk c.winSize < win.ring
  blank : c.posBase = 0 ∧ c.cur = 0 ∧ c.filterEmittedUntil = 0 ∧ c.fileStartPos = 0
  streaming : c.streaming = false
  reps : c.oldDist = unsetOldDist ∧ c.lastLength = 0
  output : c.tokens = [] ∧ c.freq = initFreq ∧ c.memOut = []

theorem beginArchive_fresh (hstreaming : c.streaming = false) (links : Nat → Nat)
    (method winSize : Nat) (cfg : FilterConfig) :
    Fresh (reachOf winSize cfg) (c.beginArchive links method winSize) := by
  constructor
  · show 1 ≤ (if method < 1 ∨ method > 5 then 5 else method) ∧
      (if method < 1 ∨ method > 5 then 5 else method) ≤ 5
    split <;> omega
  · exact ⟨le_rfl, Nat.min_le_right _ _⟩
  · exact ⟨normalizeWindowSize_low winSize, Nat.lt_succ_self _⟩
  · exact ⟨rfl, rfl, rfl, rfl⟩
  · exact hstreaming
  · exact ⟨rfl, rfl⟩
  · exact ⟨rfl, rfl, rfl⟩

theorem Fresh.setActiveFilter (h : Fresh win c) (cfg : FilterConfig) (type : FilterType)
    (channels : Nat) (pretransformed : Bool) :
    Fresh win ({ c with filterConfig := cfg }.setActiveFilter type channels pretransformed) :=
  { h with blank := ⟨h.blank.1, h.blank.2.1, rfl, h.blank.2.2.2⟩ }

theorem Fresh.withInput (h : Fresh win c) (src : List UInt8) (compWin : Nat) :
    Fresh win (c.withInput src compWin) := by
  unfold Compressor50.withInput
  split
  · exact { h with blank := ⟨rfl, rfl, h.blank.2.2⟩ }
  · exact { h with }

/-- The member that a packer codes: plain, or transformed in chunks beforehand. -/
structure Transformed (win : Reach) (m : Member) (c : Compressor50) : Prop where
  prior : m.prior = []
  size : m.orig.length < 2 ^ 63
  form : (c.activeFilter = .none ∧ m.enc = m.orig) ∨
    (c.filterPretransformed = true ∧ c.activeFilter ≠ .none ∧
      (1 ≤ c.filterChannels ∧ c.filterChannels ≤ win.channels) ∧
      m.enc = encodeChunks c.activeFilter c.filterChannels (filterMaxChunk c.winSize)
        m.orig.length 0 m.orig)

theorem Transformed.withInput (h : Transformed win m c) (src : List UInt8) (compWin : Nat) :
    Transformed win m (c.withInput src compWin) := by
  unfold Compressor50.withInput
  split
  · exact ⟨h.prior, h.size, h.form⟩
  · exact ⟨h.prior, h.size, h.form⟩

theorem Transformed.enc_length (h : Transformed win m c) (hfresh : Fresh win c) :
    m.enc.length = m.orig.length := by
  rcases h.form with ⟨_, heq⟩ | ⟨_, _, _, henc⟩
  · rw [heq]
  · rw [henc, encodeChunks_length (filterMaxChunk_bounds hfresh.window.1).1 _ _ _ (Nat.le_refl _)]

theorem Transformed.final (h : Transformed win m c) :
    c.activeFilter = .none ∨ c.filterPretransformed = true := by
  rcases h.form with ⟨hnone, _⟩ | ⟨hpre, _⟩
  · exact Or.inl hnone
  · exact Or.inr hpre

section

variable (h : Fresh win c) (hm : Transformed win m c)
include h hm

/-- The start of a packer is the start of its member. -/
theorem Fresh.wellFormed (hne : m.orig ≠ []) : Member.WellFormed m c.mode := by
  have hlen := hm.enc_length h
  have hsize := hm.size
  have hpos := length_pos_iff.mpr hne
  refine ⟨hlen, by omega, ?_, ?_⟩
  · rw [hm.prior, length_nil, sizeMax]
    omega
  · unfold mode
    rcases hm.form with ⟨hnone, heq⟩ | ⟨_, hactive, _⟩
    · exact Or.inl ⟨if_pos hnone, heq⟩
    · right
      rw [if_neg hactive, h.blank.2.2.1, Nat.zero_sub]

theorem Fresh.lzState : c.started.lzState m 0 =
      startState unsetDistances 0 c.mode := by
  unfold Compressor50.lzState startState
  rw [show c.started.cur = 0 from h.blank.2.1, hm.prior,
    show c.started.oldDist = unsetOldDist from h.reps.1,
    show c.started.lastLength = 0 from h.reps.2]
  rfl

/-- The invariant at the start of a packer that has loaded some of its input. -/
theorem Fresh.running {n : Nat} (hdata : c.data = m.enc.take n) (hsize : c.srcSize = m.enc.length) :
    Running m win 0 (c.started.lzState m 0) c.started ∧ PassInput m win 0 false c.started := by
  obtain ⟨hbase, hcur, huntil, hfile⟩ := h.blank
  obtain ⟨hmin, hnice⟩ := started_params c h.method
  have hlen := hm.enc_length h
  have hloaded : c.data.length ≤ m.enc.length := by
    rw [hdata, length_take]
    exact Nat.min_le_right _ _
  have hsettled : c.started.settled = c.data.length := if_pos (hm.final.imp_right Or.inr)
  constructor
  · apply Running.initial
    · refine ⟨hmin, hnice, h.maxDist.1, h.maxDist.2, hsettled.le, ?_, ?_⟩
      · rw [hm.prior]
        show c.data.length + 0 ≤ 0 + m.enc.length
        omega
      · rw [hsettled]
        intro p hp
        show c.data[p]? = (m.prior ++ m.enc)[p + 0]?
        rw [hdata, length_take] at hp
        rw [hm.prior, hdata, List.getElem?_take_of_lt (by omega)]
        rfl
    · show c.oldDist.length = 4
      rw [h.reps.1]
      rfl
    · exact (hbase.trans hcur.symm).le
    · exact hcur.le.trans (Nat.zero_le _)
    · rw [hm.prior]
      exact Nat.zero_le _
    · intro _
      exact hcur.le.trans (Nat.zero_le _)
    · exact h.output.1
    · exact h.output.2.1
    · exact h.output.2.2
  · constructor
    · show c.data.length ≤ c.srcSize
      omega
    · intro hactive
      refine ⟨rfl, ?_⟩
      rcases hm.form with ⟨hnone, _⟩ | ⟨hpre, _, hchannels, henc⟩
      · exact absurd hnone hactive
      · exact ⟨hm.prior, h.window, hchannels, henc, hm.size, hfile,
          Or.inl ⟨0, huntil.trans (Nat.zero_mul _).symm⟩,
          Or.inl ⟨hpre, h.streaming, hsize.trans hlen⟩⟩
    · intro hstreaming
      rw [show c.started.streaming = false from h.streaming] at hstreaming
      cases hstreaming
    · intro _ hfinal
      cases hfinal

end

/-- The last block of a stream is never empty. -/
theorem stream_ne_nil {st st' : LzState} {bytes : List UInt8} (h : Stream m win st bytes st') :
    bytes ≠ [] := by
  induction h with
  | last _ hwrite =>
    rintro rfl
    unfold BlockWriter.writeBlock at hwrite
    dsimp only at hwrite
    split at hwrite
    · simp at hwrite
    · split at hwrite
      · cases hwrite
      · simp [BlockWriter.blockHeader] at hwrite
  | cons _ _ _ ih =>
    intro hnil
    exact ih (append_eq_nil_iff.mp hnil).2
  | forget _ ih => exact ih

section

variable (h : Fresh win c) (hm : Transformed win m c) (hdata : c.data = [])
    (hexternal : c.externalBuf = false) (heof : c.srcEof = false)
    (hbuffer : c.bufSize = c.winSize + 0x400000 + readChunk) (compWin : Nat)
include h hm hdata hexternal heof hbuffer

theorem Fresh.compress : Compresses m win 0 (c.withInput m.enc compWin) m.enc.length true := by
  have hfresh := h.withInput m.enc compWin
  have htransformed := hm.withInput m.enc compWin
  by_cases hfits : m.enc.length ≤ compWin + 0x400000
  · have hinput : c.withInput m.enc compWin = c.setExternalBuffer m.enc := if_pos hfits
    rw [hinput] at hfresh htransformed ⊢
    obtain ⟨hrun, hpass⟩ := hfresh.running htransformed (take_length (l := m.enc)).symm rfl
    have hcompresses := hrun.compress_loaded hpass ⟨rfl, h.streaming, rfl⟩ true
    have hstop : (c.setExternalBuffer m.enc).srcLoaded + 0 - m.prior.length = m.enc.length := by
      rw [hm.prior]
      rfl
    rwa [hstop] at hcompresses
  · have hinput : c.withInput m.enc compWin =
        { c with srcSize := m.enc.length, source := m.enc } := if_neg hfits
    rw [hinput] at hfresh htransformed ⊢
    obtain ⟨hrun, hpass⟩ :=
      hfresh.running htransformed (n := 0) (hdata.trans (take_zero).symm) rfl
    apply hrun.compress_loading hm.prior hpass ?_ hm.final true
    obtain ⟨hbase, hcur, _, _⟩ := h.blank
    constructor
    · exact hexternal
    · exact h.streaming
    · show c.data ++ m.enc = m.enc
      rw [hdata, nil_append]
    · rfl
    · intro hflag
      rw [show _ = c.srcEof from rfl, heof] at hflag
      cases hflag
    · exact hbuffer
    · show c.cur + 0x80000 ≤ c.posBase + c.bufSize
      omega
    · exact (hbase.trans hcur.symm).le
    · exact hcur.le.trans (Nat.zero_le _)

/-- **A packer with its input succeeds**, and writes the stream of its member. -/
theorem Fresh.packed : ∃ bytes st', (c.withInput m.enc compWin).packed = some bytes ∧
      Stream m win (startState unsetDistances 0
        (c.withInput m.enc compWin).mode) bytes st' ∧
      st'.pos = m.enc.length := by
  obtain ⟨c', hcompress, -, -, -, ⟨st', hpos, _, hstream⟩⟩ :=
    (h.compress hm hdata hexternal heof hbuffer compWin).result
  rw [(h.withInput m.enc compWin).lzState (hm.withInput m.enc compWin)] at hstream
  refine ⟨c'.memOut, st', ?_, hstream rfl, hpos⟩
  rw [Compressor50.packed, hcompress]
  exact if_neg (stream_ne_nil (hstream rfl))

end

/-- **Compressing one buffer writes the stream of a member with the buffer's
content.** -/
theorem compressBuffer_stream (host : Host) {src : List UInt8} (hne : src ≠ [])
    (hsize : src.length < 2 ^ 63) (method winSize : Nat) (cfg : FilterConfig) :
    ∃ bytes m mode st', compressBuffer host src method winSize cfg = some bytes ∧
      m.prior = [] ∧ m.orig = src ∧ Member.WellFormed m mode ∧
      Stream m (reachOf (compWinSize src.length winSize) cfg)
        (startState unsetDistances 0 mode) bytes st' ∧
      st'.pos = m.enc.length := by
  set compWin := compWinSize src.length winSize with hcompWin
  set packer := (new host.noBackshift host.noForwardArrival).beginArchive host.links method compWin
    with hpacker
  have hfresh : Fresh (reachOf compWin cfg) packer := beginArchive_fresh rfl _ _ _ _
  have hchannels := detectFilter_channels src cfg
  unfold compressBuffer
  rw [if_neg (by simpa using hne)]
  dsimp only
  split
  · have hm : Transformed (reachOf compWin cfg) ⟨[], src, src⟩ packer :=
      ⟨rfl, hsize, Or.inl ⟨rfl, rfl⟩⟩
    obtain ⟨bytes, st', hpacked, hstream, hpos⟩ := hfresh.packed hm rfl rfl rfl rfl compWin
    exact ⟨bytes, _, _, st', hpacked, rfl, rfl,
      (hfresh.withInput _ _).wellFormed (hm.withInput _ _) hne, hstream, hpos⟩
  · next hactive =>
    have hfresh' := hfresh.setActiveFilter cfg (detectFilter src cfg).1 (detectFilter src cfg).2
      true
    have hm : Transformed (reachOf compWin cfg)
        ⟨[], encodeChunks (detectFilter src cfg).1 (detectFilter src cfg).2
          (filterMaxChunk packer.winSize) src.length 0 src, src⟩
        ({ packer with filterConfig := cfg }.setActiveFilter (detectFilter src cfg).1
          (detectFilter src cfg).2 true) :=
      ⟨rfl, hsize, Or.inr ⟨rfl, hactive, hchannels, rfl⟩⟩
    obtain ⟨bytes, st', hpacked, hstream, hpos⟩ := hfresh'.packed hm rfl rfl rfl rfl compWin
    exact ⟨bytes, _, _, st', hpacked, rfl, rfl,
      (hfresh'.withInput _ _).wellFormed (hm.withInput _ _) hne, hstream, hpos⟩

end Compressor50

namespace Decompressor50

/-- A fresh decoder whose window is within the limit. -/
theorem new_usable {window : Nat} (hlow : 0x10000 ≤ window) (hhigh : window ≤ allocLimit) :
    Usable (new window) ∧ (new window).engine.winSize = window := by
  have hwindow : (new window).engine.winSize = max window 0x10000 := by
    unfold new
    rw [if_pos (by omega)]
    rfl
  rw [Nat.max_eq_left hlow] at hwindow
  refine ⟨⟨?_, rfl, by omega⟩, hwindow⟩
  show decide ((if window ≠ 0 then window else defaultWinSize) > allocLimit) = false
  rw [if_pos (by omega), decide_eq_false_iff_not]
  omega

theorem decompress_above_limit {window : Nat} (h : allocLimit < window) {bytes : List UInt8}
    {destSize : Nat} {solid : Bool} {result : CallResult}
    (hrun : (new window).decompress bytes destSize solid = some result) : result.chunks = [] := by
  have hrefused : (new window).dictionaryTooLarge = true := by
    show decide ((if window ≠ 0 then window else defaultWinSize) > allocLimit) = true
    rw [if_pos (by omega), decide_eq_true_iff]
    exact h
  unfold decompress at hrun
  split at hrun
  · cases hrun
    rfl
  · rw [decompressInternal, if_pos hrefused] at hrun
    cases hrun

end Decompressor50

open Compressor50

/-- What compression wrote is decoded by a fresh decoder whose window is as large as the
requested one, up to the 64 GiB that a decoder allocates at most. -/
theorem decompress_compressBuffer {host : Host} {src bytes : List UInt8} (hne : src ≠ [])
    (hsize : src.length < 2 ^ 63) {method winSize : Nat} (hwin : 1 ≤ winSize)
    {cfg : FilterConfig} (hcfg : cfg.Admissible)
    (hbytes : compressBuffer host src method winSize cfg = some bytes) {window : Nat}
    (hlow : neededWindow winSize ≤ window) (hhigh : window ≤ Decompressor50.allocLimit) :
    ∃ result, (Decompressor50.new window).decompress bytes src.length false = some result ∧
      result.chunks.flatten = src := by
  obtain ⟨written, m, mode, st', hwritten, hprior, horig, hm, hstream, hpos⟩ :=
    compressBuffer_stream host hne hsize method winSize cfg
  obtain rfl : bytes = written := Option.some.inj (hbytes.symm.trans hwritten)
  obtain ⟨hcomp, hle⟩ := compWinSize_bounds src.length hwin
  have hwithin := reachOf_within hcomp hcfg (le_trans (neededWindow_mono hle) hlow)
  obtain ⟨husable, hwindow⟩ := new_usable (le_trans (Nat.le_max_right _ _) hlow) hhigh
  have hstart : if false = true then Ready (Decompressor50.new window) m.prior
      unsetDistances 0
    else Usable (Decompressor50.new window) ∧ m.prior = [] ∧
      unsetDistances = unsetDistances ∧ 0 = 0 :=
    ⟨husable, hprior, rfl, rfl⟩
  obtain ⟨result, hresult, hdecoded⟩ := decompress_stream hstart hm
    (hwindow.symm ▸ hwithin) hstream hpos
  refine ⟨result, ?_, hdecoded.content.trans horig⟩
  rw [← horig, ← hm.lengths]
  exact hresult

/-- **Round trip of one buffer.**  Compression succeeds, and a fresh decoder with any
window that is as large as the requested one, up to the 64 GiB that a decoder
allocates at most, gives the buffer back. -/
theorem compress_buffer_round_trip (host : Host) (src : List UInt8) (hne : src ≠ [])
    (hsize : src.length < 2 ^ 63) (method winSize : Nat) (hwin : 1 ≤ winSize)
    (cfg : FilterConfig) (hcfg : cfg.deltaChannels ≤ 32) :
    ∃ bytes, compressBuffer host src method winSize cfg = some bytes ∧
      ∀ window, max (min winSize 0x1000000000) 0x10000 ≤ window → window ≤ 0x1000000000 →
        ∃ result, (Decompressor50.new window).decompress bytes src.length false = some result ∧
          result.chunks.flatten = src := by
  obtain ⟨bytes, _, _, _, hbytes, _⟩ := compressBuffer_stream host hne hsize method winSize cfg
  exact ⟨bytes, hbytes, fun window hlow hhigh =>
    decompress_compressBuffer hne hsize hwin hcfg hbytes hlow hhigh⟩

/-- Eight bytes, again and again. -/
def repeats : List UInt8 := (List.replicate 32 [1, 2, 3, 4, 5, 6, 7, 9]).flatten

/-- They go through the delta filter of two channels. -/
theorem compress_buffer_round_trip_repeats :
    ∃ bytes, compressBuffer ⟨false, false, fun _ => 0⟩ repeats 3 0x20000 ⟨.auto, 0, 0, 1, 2⟩ =
        some bytes ∧
      ∀ window, max (min 0x20000 0x1000000000) 0x10000 ≤ window → window ≤ 0x1000000000 →
        ∃ result, (Decompressor50.new window).decompress bytes repeats.length false = some result ∧
          result.chunks.flatten = repeats :=
  compress_buffer_round_trip ⟨false, false, fun _ => 0⟩ repeats (by decide) (by decide +kernel) 3
    0x20000 (by decide) ⟨.auto, 0, 0, 1, 2⟩ (by decide)

/-- Without the limit the round trip fails: the decoder refuses a larger window. -/
theorem compress_buffer_window_above_limit :
    ¬ ∀ (host : Host) (src : List UInt8), src ≠ [] → ∀ method, 1 ≤ method ∧ method ≤ 5 →
      ∀ winSize, 1 ≤ winSize → ∀ cfg : FilterConfig, cfg.deltaChannels ≤ 32 →
        ∃ bytes, compressBuffer host src method winSize cfg = some bytes ∧
          ∀ window, max winSize 0x10000 ≤ window →
            ∃ result, (Decompressor50.new window).decompress bytes src.length false = some result ∧
              result.chunks.flatten = src := by
  intro hall
  obtain ⟨bytes, _, hround⟩ := hall ⟨false, false, fun _ => 0⟩ [7] (by decide) 1 (by decide) 1
    (by decide) {} (by decide)
  obtain ⟨result, hresult, hcontent⟩ := hround 0x1000000001 (by decide)
  rw [decompress_above_limit (by decide) hresult] at hcontent
  cases hcontent

end OpenRar.Compress
