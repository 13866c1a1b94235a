import OpenRar.Compress.StreamRuns
import OpenRar.Compress.TokenExecution

/-!
# Soundness of the parser

Whatever way the encoder is driven, the tokens it emits mean its input.  A session packs
one buffer, packs a piece of a member behind a seed of history, or takes its input in
pieces, behind the window of an earlier session or not.  In every state between two
tokens the tokens emitted so far, executed as the decoder executes them, give the bytes
covered so far; no copy reaches back further than the session allows or before the seed;
and each repeat distance and last length that the encoder has set is the decoder's.
-/

namespace OpenRar.Compress

open OpenRar.Core Decompressor50 List

namespace Compressor50

variable {m : Member} {win : Reach} {c c' : Compressor50}

/-! ## Streams that are opened -/

/-- The reach that a session needs by its own parameters. -/
def reach (c : Compressor50) : Reach where
  dist := c.maxDist
  ring := filterMaxChunk c.winSize + 1
  channels := max 32 c.filterConfig.deltaChannels

theorem search_params (c : Compressor50) (hmethod : 1 ≤ c.method ∧ c.method ≤ 5) :
    2 ≤ c.initMatchParams.minMatch ∧ 2 ≤ c.initMatchParams.niceLen :=
  started_params c hmethod

variable {c0 : Compressor50} {links : Nat → Nat} {method winSize : Nat}

theorem beginStream_new (h : c0.beginStream links method winSize false = some c)
    (cfg : FilterConfig) :
    Begun { c with filterConfig := cfg }.reach { c with filterConfig := cfg } ∧
      c.cur = c.srcLoaded := by
  unfold beginStream at h
  dsimp only at h
  split at h
  · cases h
  next hmethod =>
  cases h
  set size := if winSize = 0 then 0x200000 else winSize
  have hrange : 1 ≤ method ∧ method ≤ 5 := by omega
  have hkeep : (if method < 1 ∨ method > 5 then 5 else method) = method := if_neg hmethod
  have hparams := search_params
    ({ c0 with streaming := true, streamFinished := false }.beginArchive links method size)
    (show 1 ≤ (if method < 1 ∨ method > 5 then 5 else method) ∧
      (if method < 1 ∨ method > 5 then 5 else method) ≤ 5 by rw [hkeep]; exact hrange)
  refine ⟨?_, rfl⟩
  constructor
  · show 1 ≤ (if method < 1 ∨ method > 5 then 5 else method) ∧
      (if method < 1 ∨ method > 5 then 5 else method) ≤ 5
    rw [hkeep]
    exact hrange
  · exact hparams
  · exact ⟨le_rfl, Nat.min_le_right _ _⟩
  · exact ⟨normalizeWindowSize_low size, Nat.lt_succ_self _⟩
  · exact le_rfl
  · rfl
  · exact ⟨rfl, rfl, rfl⟩
  · exact ⟨rfl, rfl⟩
  · exact ⟨le_rfl, le_rfl, rfl, rfl⟩
  · rfl
  · show 0 < 0 + streamLookahead
    decide
  · rfl
  · exact ⟨rfl, rfl, rfl, rfl⟩

/-- A new window allows no distance above its size. -/
theorem beginStream_maxDist (h : c0.beginStream links method winSize false = some c) :
    c.maxDist ≤ if winSize = 0 then 0x200000 else winSize := by
  unfold beginStream at h
  dsimp only at h
  split at h
  · cases h
  cases h
  exact le_trans (Nat.min_le_left _ _) (Nat.min_le_left _ _)

/-- What neither feeding nor finishing changes. -/
theorem Ended.kept {start : LzState} {c1 c2 : Compressor50} (h : Ended m win start c1 c2)
    (hframe : (c1.withFilter .none 0).feedFrame = (c0.withFilter .none 0).feedFrame) :
    (c2.withFilter .none 0).feedFrame
      = { (c0.withFilter .none 0).feedFrame with srcEof := true, streamFinished := true } := by
  rw [← hframe]
  exact congrArg (fun x : Compressor50 => x.withFilter .none 0) h.frame

/-- A session that carries on the window of one that has ended. -/
theorem Ended.beginStream {start : LzState} {c1 c2 c3 : Compressor50} (h : Ended m win start c1 c2)
    (hbegun : Begun win c0)
    (hframe : (c1.withFilter .none 0).feedFrame = (c0.withFilter .none 0).feedFrame)
    (hbegin : c2.beginStream links method winSize true = some c3) (cfg : FilterConfig) :
    Begun { c3 with filterConfig := cfg, memOut := [] }.reach
        { c3 with filterConfig := cfg, memOut := [] } ∧
      c3.cur = c3.srcLoaded ∧ c3.maxDist = c0.maxDist := by
  have hkept := h.kept hframe
  have hmethod : c2.method = c0.method := (congrArg Compressor50.method hkept :)
  have hmaxDist : c2.maxDist = c0.maxDist := (congrArg maxDist hkept :)
  have hwindow : c2.winSize = c0.winSize := (congrArg Compressor50.winSize hkept :)
  have hbuffer : c2.bufSize = c0.bufSize := (congrArg bufSize hkept :)
  have hexternal : c2.externalBuf = c0.externalBuf := (congrArg externalBuf hkept :)
  have hparams := search_params { c2 with streaming := true, streamFinished := false }
    (show 1 ≤ c2.method ∧ c2.method ≤ 5 by rw [hmethod]; exact hbegun.method)
  obtain ⟨hbase, hcur⟩ := h.position
  unfold Compressor50.beginStream at hbegin
  dsimp only at hbegin
  generalize (if winSize = 0 then 0x200000 else winSize) = size at hbegin
  split at hbegin
  · cases hbegin
  split at hbegin
  · cases hbegin
  cases hbegin
  refine ⟨?_, hcur, hmaxDist⟩
  constructor
  · show 1 ≤ c2.method ∧ c2.method ≤ 5
    rw [hmethod]
    exact hbegun.method
  · exact hparams
  · refine ⟨le_rfl, ?_⟩
    show c2.maxDist ≤ 2 ^ 32
    rw [hmaxDist]
    exact hbegun.maxDist.2
  · refine ⟨?_, Nat.lt_succ_self _⟩
    show 0x10000 ≤ c2.winSize
    rw [hwindow]
    exact hbegun.window.1
  · exact le_rfl
  · show c2.bufSize = c2.winSize + 0x400000 + readChunk
    rw [hbuffer, hwindow]
    exact hbegun.buffer
  · exact ⟨rfl, rfl, hexternal.trans hbegun.flags.2.2⟩
  · exact ⟨rfl, rfl⟩
  · exact ⟨hbase, hcur.le, rfl, rfl⟩
  · rfl
  · show c2.srcLoaded < c2.cur + streamLookahead
    rw [hcur]
    exact Nat.lt_add_of_pos_right (by decide)
  · exact h.reps
  · exact ⟨rfl, h.output.2, rfl, rfl⟩

/-- The objects on which a streamed session starts: on a new window of the given size, or
carrying on the window of a session that has ended. -/
inductive Opens (winSize : Nat) : Compressor50 → Prop
  | new {c0 c : Compressor50} {links : Nat → Nat} {method : Nat}
      (hbegin : c0.beginStream links method winSize false = some c) (cfg : FilterConfig) :
      Opens winSize { c with filterConfig := cfg }
  | next {c0 c1 c2 c3 : Compressor50} {links : Nat → Nat} {method again : Nat}
      {pieces : List (List UInt8)} (hopens : Opens winSize c0)
      (hfeed : feedAll c0 pieces = some c1)
      (hsize : c0.srcLoaded + pieces.flatten.length < 2 ^ 63)
      (hfinish : c1.finishStream = some c2)
      (hbegin : c2.beginStream links method again true = some c3) (cfg : FilterConfig) :
      Opens winSize { c3 with filterConfig := cfg, memOut := [] }

theorem drop_loaded (hloaded : c.cur = c.srcLoaded) : c.data.drop c.cur = [] := by
  rw [drop_eq_nil_iff]
  exact hloaded.ge

/-- Sessions start with the invariant, one after the other, and with the distances of the
first. -/
theorem Opens.begun (h : Opens winSize c) :
    Begun c.reach c ∧ c.cur = c.srcLoaded ∧ (0 < winSize → c.maxDist ≤ winSize) := by
  induction h with
  | @new c0 c links method hbegin cfg =>
    obtain ⟨hbegun, hcur⟩ := beginStream_new hbegin cfg
    refine ⟨hbegun, hcur, fun hpos => ?_⟩
    have hdist := beginStream_maxDist hbegin
    rw [if_neg (by omega)] at hdist
    exact hdist
  | @next c0 c1 c2 c3 links method again pieces _ hfeed hsize hfinish hbegin cfg ih =>
    obtain ⟨hbegun, hcur, hdist⟩ := ih
    obtain ⟨type, channels, hsupplies⟩ := hbegun.supply pieces hsize
    rcases hsupplies.result with ⟨hnone, _⟩ | ⟨c1', hsome, hsupplied⟩
    · rw [hfeed] at hnone
      cases hnone
    obtain rfl : c1 = c1' := Option.some.inj (hfeed.symm.trans hsome)
    have hloaded := hsupplied.loaded
    obtain ⟨-, c2', hsome2, hended⟩ := hsupplied.feeding.finishStream (by
      rw [hloaded, hbegun.prior_length]
      rfl)
    obtain rfl : c2 = c2' := Option.some.inj (hfinish.symm.trans hsome2)
    obtain ⟨hbegun', hcur', hsame⟩ := hended.beginStream hbegun hsupplied.frame hbegin cfg
    exact ⟨hbegun', hcur', fun hpos => hsame.trans_le (hdist hpos)⟩

/-! ## Sessions -/

/-- The packer of `compress_buffer` before it compresses. -/
def bufferPacker (host : Host) (src : List UInt8) (method winSize : Nat) (cfg : FilterConfig) :
    Compressor50 :=
  let compWin := compWinSize src.length winSize
  let packer := (new host.noBackshift host.noForwardArrival).beginArchive host.links method compWin
  let (type, channels) := detectFilter src cfg
  if type = .none then packer.withInput src compWin
  else
    ({ packer with filterConfig := cfg }.setActiveFilter type channels true).withInput
      (encodeChunks type channels (filterMaxChunk packer.winSize) src.length 0 src) compWin

/-- The packer of a worker that codes `data` behind a seed of history. -/
def workerPacker (object : Compressor50) (links : Nat → Nat) (method winSize : Nat)
    (seed data : List UInt8) : Compressor50 :=
  (object.beginArchive links method winSize).setSeededExternalBuffer (seed ++ data) seed.length

/-- The ways in which an encoder is driven. -/
inductive Session
  | buffer (host : Host) (src : List UInt8) (method winSize : Nat) (cfg : FilterConfig)
  | worker (object : Compressor50) (links : Nat → Nat) (method winSize : Nat)
      (seed data : List UInt8) (lastBlock : Bool)
  | stream (start : Compressor50) (pieces : List (List UInt8))

namespace Session

/-- A packer of its own, or an opened stream; the positions of the input are positions of
memory. -/
def Legal : Session → Prop
  | buffer _ src _ _ _ => src.length < 2 ^ 63
  | worker object _ _ _ _ _ _ => object.streaming = false
  | stream start pieces =>
    (∃ winSize, Opens winSize start) ∧ start.srcLoaded + pieces.flatten.length < 2 ^ 63

/-- The state before the first token. -/
def start : Session → Compressor50
  | buffer host src method winSize cfg => (bufferPacker host src method winSize cfg).started
  | worker object links method winSize seed data _ =>
    (workerPacker object links method winSize seed data).started
  | stream start _ => start

/-- The history in front of the input. -/
def seed : Session → List UInt8
  | buffer _ _ _ _ _ => []
  | worker _ _ _ _ seed _ _ => seed
  | stream start _ => start.data

def input : Session → List UInt8
  | buffer _ src _ _ _ => src
  | worker _ _ _ _ _ data _ => data
  | stream _ pieces => pieces.flatten

/-- The states in which the loop of the encoder starts a turn: those between two
tokens. -/
def states : Session → List Compressor50
  | buffer host src method winSize cfg => (bufferPacker host src method winSize cfg).compressStates
  | worker object links method winSize seed data _ =>
    (workerPacker object links method winSize seed data).compressStates
  | stream start pieces =>
    feedAllStates start pieces ++
      match feedAll start pieces with
      | some c => c.finishStates
      | none => []

/-- The state at the end, `none` if a call fails. -/
def result : Session → Option Compressor50
  | buffer host src method winSize cfg => (bufferPacker host src method winSize cfg).compress true
  | worker object links method winSize seed data lastBlock =>
    (workerPacker object links method winSize seed data).compress lastBlock
  | stream start pieces => (feedAll start pieces).bind finishStream

/-- The filter of the session. -/
def Decides (type : FilterType) (channels : Nat) : Session → Prop
  | buffer _ src _ _ cfg => detectFilter src cfg = (type, channels)
  | worker _ _ _ _ _ _ _ => type = .none
  | stream start pieces => ∀ c, feedAll start pieces = some c →
      c.activeFilter = type ∧ c.filterChannels = channels

/-- The input as the encoder codes it. -/
def member (sess : Session) (type : FilterType) (channels : Nat) : Member where
  prior := sess.seed
  enc := encodeChunks type channels (filterMaxChunk sess.start.winSize) sess.input.length 0
    sess.input
  orig := sess.input

/-- All of the input is covered. -/
theorem take_all {sess : Session} {type : FilterType} {channels pos : Nat}
    (hlow : 0x10000 ≤ sess.start.winSize) (hpos : pos = sess.input.length) :
    (sess.member type channels).enc.take pos = (sess.member type channels).enc := by
  apply take_of_length_le
  rw [hpos]
  exact (encodeChunks_length (filterMaxChunk_bounds hlow).1 _ _ _ le_rfl).le

end Session

/-- The tokens that were emitted up to a state mean the bytes covered up to it, with no
distance above the limit, for every decoder that agrees with the encoder at the start, and
the decoder agrees with the encoder afterwards. -/
def SoundWithin (limit : Nat) (m : Member) (start c : Compressor50) : Prop :=
  ∃ tokens, Written c.memOut tokens ∧
    ∀ d : Decompressor50, Mirrors start.oldDist start.lastLength d →
      limit ≤ d.engine.winSize →
      ∃ d', ((tokens ++ c.tokens).map Token.block).foldlM (execute limit) (d, m.prior)
          = some (d', m.prior ++ m.enc.take (c.cur - m.prior.length)) ∧
        Mirrors c.oldDist c.lastLength d'

/-- The limit is the largest distance of the session. -/
def Sound (m : Member) (start c : Compressor50) : Prop :=
  SoundWithin start.maxDist m start c

/-- A larger limit allows the same tokens. -/
theorem SoundWithin.mono {limit limit' : Nat} {start : Compressor50}
    (h : SoundWithin limit m start c) (hle : limit ≤ limit') : SoundWithin limit' m start c := by
  obtain ⟨tokens, hwritten, hexecute⟩ := h
  refine ⟨tokens, hwritten, fun d hmirror hwin => ?_⟩
  obtain ⟨d', hrun, hmirror'⟩ := hexecute d hmirror (hle.trans hwin)
  exact ⟨d', execute_foldlM_mono hle _ hrun, hmirror'⟩

theorem Emits.sound {st : LzState} {start : Compressor50} (h : Emits m win 0 st c)
    (hpos : st.pos = 0) (hreps : st.reps = start.oldDist) (hlast : st.lastLen = start.lastLength)
    (hdist : win.dist = start.maxDist) : Sound m start c := by
  obtain ⟨tokens, mode, hwritten, hchain⟩ := h
  refine ⟨tokens, hwritten, fun d hmirror hwin => ?_⟩
  obtain ⟨d', hexecute, hmirror'⟩ := execute_chain hchain
    (show Mirrors st.reps st.lastLen d by rw [hreps, hlast]; exact hmirror)
    (hdist ▸ hwin)
  refine ⟨d', ?_, hmirror'⟩
  rw [hpos, take_zero, append_nil, hdist] at hexecute
  exact hexecute

/-! ## Packers -/

theorem Compresses.sound {c : Compressor50} {stop : Nat} {lastBlock : Bool}
    (h : Compresses m win 0 c stop lastBlock) (hcur : c.cur = m.prior.length)
    (hdist : win.dist = c.maxDist) :
    (∀ s ∈ c.compressStates, Sound m c.started s) ∧
      ∃ c', c.compress lastBlock = some c' ∧ Sound m c.started c' ∧ c'.tokens = [] ∧
        c'.cur - m.prior.length = stop := by
  have hpos : (c.started.lzState m 0).pos = 0 := by
    show c.cur + 0 - m.prior.length = 0
    omega
  obtain ⟨c', hsome, hemits, htokens, hstop, -⟩ := h.result
  exact ⟨fun s hs => (h.states s hs).sound hpos rfl rfl hdist, c', hsome,
    hemits.sound hpos rfl rfl hdist, htokens, hstop⟩

theorem bufferPacker_params (host : Host) (src : List UInt8) (method winSize : Nat)
    (cfg : FilterConfig) :
    (bufferPacker host src method winSize cfg).cur = 0 ∧
      (bufferPacker host src method winSize cfg).maxDist
        = (reachOf (compWinSize src.length winSize) cfg).dist ∧
      (bufferPacker host src method winSize cfg).winSize
        = (normalizeWindowSize (compWinSize src.length winSize)).1 := by
  unfold bufferPacker withInput
  dsimp only
  split <;> split <;> exact ⟨rfl, rfl, rfl⟩

theorem bufferPacker_compresses (host : Host) {src : List UInt8} (hsize : src.length < 2 ^ 63)
    (method winSize : Nat) (cfg : FilterConfig) :
    Compresses
      ((Session.buffer host src method winSize cfg).member (detectFilter src cfg).1
        (detectFilter src cfg).2)
      (reachOf (compWinSize src.length winSize) cfg) 0
      (bufferPacker host src method winSize cfg) src.length true := by
  set compWin := compWinSize src.length winSize
  set packer := (new host.noBackshift host.noForwardArrival).beginArchive host.links method compWin
  have hfresh : Fresh (reachOf compWin cfg) packer := beginArchive_fresh rfl _ _ _ _
  have hchunk := (filterMaxChunk_bounds hfresh.window.1).1
  have hring : (bufferPacker host src method winSize cfg).started.winSize = packer.winSize :=
    (bufferPacker_params host src method winSize cfg).2.2
  have hmember : (Session.buffer host src method winSize cfg).member (detectFilter src cfg).1
      (detectFilter src cfg).2
        = ⟨[], encodeChunks (detectFilter src cfg).1 (detectFilter src cfg).2
            (filterMaxChunk packer.winSize) src.length 0 src, src⟩ := by
    unfold Session.member
    rw [show (Session.buffer host src method winSize cfg).start.winSize = packer.winSize from hring]
    rfl
  rw [hmember]
  by_cases hnone : (detectFilter src cfg).1 = .none
  · have henc : encodeChunks (detectFilter src cfg).1 (detectFilter src cfg).2
        (filterMaxChunk packer.winSize) src.length 0 src = src := by
      rw [hnone]
      exact encodeChunks_none hchunk _ _ _ le_rfl
    have heq : bufferPacker host src method winSize cfg = packer.withInput src compWin :=
      if_pos hnone
    have hm : Transformed (reachOf compWin cfg) ⟨[], src, src⟩ packer :=
      ⟨rfl, hsize, Or.inl ⟨rfl, rfl⟩⟩
    rw [henc, heq]
    exact hfresh.compress hm rfl rfl rfl rfl compWin
  · have hm : Transformed (reachOf compWin cfg)
        ⟨[], encodeChunks (detectFilter src cfg).1 (detectFilter src cfg).2
          (filterMaxChunk packer.winSize) src.length 0 src, src⟩
        ({ packer with filterConfig := cfg }.setActiveFilter (detectFilter src cfg).1
          (detectFilter src cfg).2 true) :=
      ⟨rfl, hsize, Or.inr ⟨rfl, hnone, detectFilter_channels src cfg, rfl⟩⟩
    have heq : bufferPacker host src method winSize cfg =
        ({ packer with filterConfig := cfg }.setActiveFilter (detectFilter src cfg).1
          (detectFilter src cfg).2 true).withInput (encodeChunks (detectFilter src cfg).1
            (detectFilter src cfg).2 (filterMaxChunk packer.winSize) src.length 0 src) compWin :=
      if_neg hnone
    have hcompresses := (hfresh.setActiveFilter cfg _ _ true).compress hm rfl rfl rfl rfl compWin
    rw [encodeChunks_length hchunk _ _ _ le_rfl] at hcompresses
    rw [heq]
    exact hcompresses

theorem workerPacker_compresses {object : Compressor50} (hstreaming : object.streaming = false)
    (links : Nat → Nat) (method winSize : Nat) (seed data : List UInt8) (lastBlock : Bool) :
    Compresses ⟨seed, data, data⟩ (reachOf winSize {}) 0
      (workerPacker object links method winSize seed data) data.length lastBlock := by
  have hfresh := beginArchive_fresh hstreaming links method winSize {}
  set packer := object.beginArchive links method winSize
  set c := workerPacker object links method winSize seed data
  obtain ⟨hmin, hnice⟩ := started_params c hfresh.method
  have hloaded : c.started.srcLoaded = seed.length + data.length := length_append
  have hsettled : c.started.settled = c.started.srcLoaded := if_pos (Or.inl rfl)
  have hrun : Running ⟨seed, data, data⟩ (reachOf winSize {}) 0
      (c.started.lzState ⟨seed, data, data⟩ 0) c.started := by
    apply Running.initial
    · refine ⟨hmin, hnice, hfresh.maxDist.1, hfresh.maxDist.2, hsettled.le, hloaded.le, ?_⟩
      intro p _
      rfl
    · show packer.oldDist.length = 4
      rfl
    · exact Nat.zero_le _
    · rw [hloaded]
      exact Nat.le_add_right _ _
    · exact le_rfl
    · exact fun hactive => absurd rfl hactive
    · exact hfresh.output.1
    · exact hfresh.output.2.1
    · exact hfresh.output.2.2
  have hinput : PassInput ⟨seed, data, data⟩ (reachOf winSize {}) 0 false c.started := by
    refine ⟨le_rfl, fun hactive => absurd rfl hactive, fun htrue => ?_, fun _ hfinal => ?_⟩
    · rw [show c.started.streaming = false from hfresh.streaming] at htrue
      cases htrue
    · cases hfinal
  have hcompresses := hrun.compress_loaded hinput ⟨rfl, hfresh.streaming, rfl⟩ lastBlock
  have hstop : c.srcLoaded + 0 - seed.length = data.length := by
    show (seed ++ data).length + 0 - seed.length = data.length
    rw [length_append]
    omega
  rwa [hstop] at hcompresses

/-! ## All sessions -/

namespace Session

/-- The session is sound between two tokens and at its end, where all of the input is
covered; it fails only when it carries on a window behind which nothing was coded. -/
structure Runs (sess : Session) (type : FilterType) (channels : Nat) : Prop where
  filter : sess.Decides type channels
  states : ∀ s ∈ sess.states, Sound (sess.member type channels) sess.start s
  finish : ∀ c, sess.result = some c → Sound (sess.member type channels) sess.start c ∧
    c.tokens = [] ∧ (sess.member type channels).enc.take (c.cur - sess.seed.length)
      = (sess.member type channels).enc
  fails : sess.result = none → ∃ start pieces, sess = .stream start pieces ∧
    start.data = [] ∧ start.srcEof = true

theorem buffer_runs (host : Host) {src : List UInt8} (hlegal : src.length < 2 ^ 63)
    (method winSize : Nat) (cfg : FilterConfig) :
    ∃ type channels, (buffer host src method winSize cfg).Runs type channels := by
  obtain ⟨hcur, hdist, hring⟩ := bufferPacker_params host src method winSize cfg
  obtain ⟨hstates, c', hsome, hsound, htokens, hstop⟩ :=
    (bufferPacker_compresses host hlegal method winSize cfg).sound hcur hdist.symm
  refine ⟨_, _, rfl, hstates, fun c hresult => ?_, fun hnone => ?_⟩
  · obtain rfl : c' = c := Option.some.inj (hsome.symm.trans hresult)
    refine ⟨hsound, htokens, Session.take_all ?_ hstop⟩
    exact hring ▸ normalizeWindowSize_low _
  · rw [Session.result, hsome] at hnone
    cases hnone

theorem worker_runs {object : Compressor50} (hlegal : object.streaming = false)
    (links : Nat → Nat) (method winSize : Nat) (seed data : List UInt8) (lastBlock : Bool) :
    ∃ type channels, (worker object links method winSize seed data lastBlock).Runs
      type channels := by
  have hlow : 0x10000
      ≤ (Session.worker object links method winSize seed data lastBlock).start.winSize :=
    normalizeWindowSize_low winSize
  have hcompresses := workerPacker_compresses hlegal links method winSize seed data lastBlock
  have hmember : (Session.worker object links method winSize seed data lastBlock).member .none 1
      = ⟨seed, data, data⟩ := by
    have henc : encodeChunks .none 1 _ data.length 0 data = data :=
      encodeChunks_none (filterMaxChunk_bounds hlow).1 data.length 0 data le_rfl
    unfold Session.member
    rw [show (Session.worker object links method winSize seed data lastBlock).input = data
      from rfl, henc]
    rfl
  obtain ⟨hstates, c', hsome, hsound, htokens, hstop⟩ := hcompresses.sound rfl rfl
  rw [← hmember] at hstates hsound hstop
  refine ⟨_, _, rfl, hstates, fun c hresult => ?_, fun hnone => ?_⟩
  · obtain rfl : c' = c := Option.some.inj (hsome.symm.trans hresult)
    exact ⟨hsound, htokens, Session.take_all hlow hstop⟩
  · rw [Session.result, hsome] at hnone
    cases hnone

theorem stream_runs {start : Compressor50} {winSize : Nat} (hopens : Opens winSize start)
    {pieces : List (List UInt8)} (hsize : start.srcLoaded + pieces.flatten.length < 2 ^ 63) :
    ∃ type channels, (stream start pieces).Runs type channels := by
  obtain ⟨hbegun, hcur, -⟩ := hopens.begun
  obtain ⟨type, channels, hsupplies⟩ := hbegun.supply pieces hsize
  rw [drop_loaded hcur, nil_append] at hsupplies
  have hseed : start.data.take start.cur = start.data := take_of_length_le hcur.ge
  have hmember : start.memberOf type channels pieces.flatten
      = (Session.stream start pieces).member type channels := by
    unfold memberOf Session.member
    rw [hseed]
    rfl
  have hsound : ∀ {s : Compressor50}, Emits (start.memberOf type channels pieces.flatten)
      start.reach 0 start.startOf s →
      Sound ((Session.stream start pieces).member type channels) start s := by
    intro s hemits
    rw [← hmember]
    exact hemits.sound rfl rfl rfl rfl
  rcases hsupplies.result with ⟨hnone, hzero, heof⟩ | ⟨c1, hsome, hsupplied⟩
  · -- The pieces were refused: the states before the refusal are sound all the same.
    refine ⟨type, channels, fun c hc => ?_, fun s hs => ?_, fun c hresult => ?_, fun _ => ?_⟩
    · rw [hnone] at hc
      cases hc
    · rw [Session.states, hnone, append_nil] at hs
      exact hsound (hsupplies.states s hs)
    · rw [Session.result, hnone] at hresult
      cases hresult
    · refine ⟨start, pieces, rfl, ?_, heof⟩
      exact length_eq_zero_iff.mp (hcur.symm.trans hzero)
  · obtain ⟨hfinishStates, c2, hfinish, hended⟩ := hsupplied.feeding.finishStream (by
      rw [hsupplied.loaded, hbegun.prior_length]
      rfl)
    refine ⟨type, channels, fun c hc => ?_, fun s hs => ?_, fun c hresult => ?_,
      fun hnone => ?_⟩
    · obtain rfl : c1 = c := Option.some.inj (hsome.symm.trans hc)
      exact hsupplied.filter
    · rw [Session.states, hsome] at hs
      rcases mem_append.mp hs with hs | hs
      · exact hsound (hsupplies.states s hs)
      · exact hsound (hfinishStates s hs).emits
    · obtain rfl : c2 = c := by
        rw [Session.result, hsome, Option.bind_some, hfinish] at hresult
        exact Option.some.inj hresult
      refine ⟨hsound hended.emits, hended.output.1, Session.take_all hbegun.window.1 ?_⟩
      have hlen := congrArg List.length hended.data
      rw [length_append, hbegun.prior_length, hbegun.enc_length] at hlen
      show c2.cur - start.data.length = pieces.flatten.length
      have hend := hended.position.2
      unfold srcLoaded at hend hcur
      omega
    · rw [Session.result, hsome, Option.bind_some, hfinish] at hnone
      cases hnone

theorem Legal.runs {sess : Session} (h : sess.Legal) :
    ∃ type channels, sess.Runs type channels := by
  cases sess with
  | buffer host src method winSize cfg => exact buffer_runs host h method winSize cfg
  | worker object links method winSize seed data lastBlock =>
    exact worker_runs h links method winSize seed data lastBlock
  | stream start pieces =>
    obtain ⟨⟨winSize, hopens⟩, hsize⟩ := h
    exact stream_runs hopens hsize

end Session

end Compressor50

end OpenRar.Compress
