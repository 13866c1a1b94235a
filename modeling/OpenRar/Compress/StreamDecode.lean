import OpenRar.Compress.BlockBits

/-!
# Decoding a stream of blocks

A stream is a sequence of written blocks whose tokens form a chain.  The decoder
follows it to its end, and one call of the decoder hands over the content of the
member.

A writer that starts afresh in the middle of a member knows neither the repeat
distances nor the last length of the decoder.  Its chain starts from a state in
which they are not set; the decoder still tracks such a state.
-/

namespace OpenRar.Compress

open BitString BlockWriter List ApplyEngine

/-- What a writer that starts afresh knows of a state. -/
def LzState.forget (st : LzState) : LzState :=
  { st with reps := Decompressor50.unsetDistances, lastLen := 0 }

/-- The tokens of a block lead from one state to the next, and all their symbols
have codes. -/
structure BlockStep (m : Member) (win : Reach) (st : LzState) (freq : Frequencies)
    (tokens : List Token) (st' : LzState) : Prop where
  sized : Decompressor50.Sized freq
  chain : Chain m win st tokens st'
  codes : ∀ tok ∈ tokens, Codes (makeTables freq) tok

/-- A sequence of written blocks, the last one marked as such. -/
inductive Stream (m : Member) (win : Reach) : LzState → List UInt8 → LzState → Prop
  | last {st st' : LzState} {freq : Frequencies} {tokens : List Token} {bytes : List UInt8}
      (hblock : BlockStep m win st freq tokens st')
      (hwrite : writeBlock freq tokens true = some bytes) : Stream m win st bytes st'
  | cons {st st' st'' : LzState} {freq : Frequencies} {tokens : List Token}
      {bytes rest : List UInt8} (hblock : BlockStep m win st freq tokens st')
      (hwrite : writeBlock freq tokens false = some bytes) (hrest : Stream m win st' rest st'') :
      Stream m win st (bytes ++ rest) st''
  | forget {st st' : LzState} {bytes : List UInt8} (hrest : Stream m win st.forget bytes st') :
      Stream m win st bytes st'

variable {m : Member} {win : Reach}

theorem Step.bounded {st st' : LzState} {tok : Token} (h : Step m win st tok st') :
    Token.Bounded tok := by
  cases h with
  | literal _ _ => trivial
  | match_ _ hlenExtra _ hdistExtra _ _ _ _ => exact ⟨hlenExtra, hdistExtra⟩
  | rep _ _ hlenExtra _ _ _ _ _ => exact hlenExtra
  | lastLen _ _ _ _ _ => trivial
  | filter _ _ _ _ _ _ _ _ => trivial

theorem Chain.bounded {st st' : LzState} {tokens : List Token} (h : Chain m win st tokens st') :
    ∀ tok ∈ tokens, Token.Bounded tok := by
  induction h with
  | nil =>
    intro tok htok
    cases htok
  | cons hstep _ ih =>
    intro tok htok
    rcases mem_cons.mp htok with rfl | htok
    · exact hstep.bounded
    · exact ih tok htok

/-- No token starts at the end of a member. -/
theorem Chain.eq_of_end {st st' : LzState} {tokens : List Token} (h : Chain m win st tokens st')
    (hend : st.pos = m.enc.length) : st' = st := by
  cases h with
  | nil => rfl
  | cons hstep _ => exact absurd hend hstep.pos_lt.ne

namespace Decompressor50

variable {frame : CallFrame} {s : Session} {st st' : LzState}

theorem Tracks.forget (h : Tracks frame m win s st) : Tracks frame m win s st.forget := by
  refine ⟨h.toLocated, h.start, h.flavour, ⟨rfl, h.reps.count', ?_⟩, ?_, h.budget, h.size,
    h.allowed⟩
  · intro i distance hdistance hset
    simp only [LzState.forget, unsetDistances] at hdistance
    obtain ⟨_, hvalue⟩ := List.getElem?_eq_some_iff.mp hdistance
    rw [getElem_replicate] at hvalue
    exact absurd hvalue.symm hset
  · intro hlast
    exact absurd rfl hlast

variable {bytes : List UInt8} {lens : CodeLengths} {tokens : List Token} {rest : List Bool}
    {consumed lastLen : Nat} {d : Decompressor50} {reps : List Nat} {mode : Mode}

/-- At the end of a member the rest of a stream carries no tokens. -/
theorem Tracks.of_stream (h : Tracks frame m win s st) (hstream : Stream m win st bytes st')
    (hend : st.pos = m.enc.length) :
    Tracks frame m win s st' := by
  induction hstream with
  | last hblock _ =>
    rw [hblock.chain.eq_of_end hend]
    exact h
  | cons hblock _ _ ih =>
    have heq := hblock.chain.eq_of_end hend
    subst heq
    exact ih h hend
  | forget _ ih => exact ih h.forget hend

theorem tokenBits_length_pos {tok : Token} (h : Codes lens tok) :
    0 < (tokenBits lens tok).length := by
  have hused := Nat.pos_of_ne_zero h.1
  cases tok <;>
    simp only [tokenBits, Token.symbol, length_append, CanonicalCode.codeword_length] at * <;>
    omega

theorem tokenLoop_tokens (h : Tracks frame m win s st) (htables : TablesOf lens s.decoder.tables)
    (hchain : Chain m win st tokens st') (hcodes : ∀ tok ∈ tokens, Codes lens tok)
    (hreader : s.reader = ⟨tokens.flatMap (tokenBits lens) ++ rest, consumed, false⟩)
    (hend : s.endBit = consumed + (tokens.flatMap (tokenBits lens)).length) :
    ∃ s', (∀ fuel, tokenLoop frame (tokens.length + fuel) s = tokenLoop frame fuel s') ∧
      Tracks frame m win s' st' ∧ SameBlock s s' ∧ s'.reader = ⟨rest, s.endBit, false⟩ := by
  induction hchain generalizing s consumed with
  | nil =>
    refine ⟨s, fun fuel => ?_, h, ⟨rfl, rfl, rfl, rfl⟩, ?_⟩
    · rw [length_nil, Nat.zero_add]
    · rw [hreader, hend]
      rfl
  | @cons st st1 st2 tok toks hstep hrest ih =>
    rw [flatMap_cons, append_assoc] at hreader
    rw [flatMap_cons, length_append] at hend
    have hpos := tokenBits_length_pos (hcodes tok mem_cons_self)
    obtain ⟨s1, hrun, htracks, hsame, hreader1⟩ :=
      follows_step h htables hstep (hcodes tok mem_cons_self) hreader
    have htables1 : TablesOf lens s1.decoder.tables := hsame.tables ▸ htables
    obtain ⟨s2, hloop, htracks2, hsame2, hreader2⟩ := ih htracks htables1
      (fun t ht => hcodes t (mem_cons_of_mem _ ht)) hreader1
      (by rw [hsame.endBit, hend]; omega)
    refine ⟨s2, fun fuel => ?_, htracks2, ?_, ?_⟩
    · have hopen : ¬ s.totalWritten ≥ frame.destSize := by
        rw [h.total, h.dest]
        exact Nat.not_le.mpr hstep.pos_lt
      have hinside : ¬ s.reader.consumed ≥ s.endBit := by
        rw [hreader, hend]
        simp only
        omega
      have hmore : ¬ s.reader.bitsRemaining < 1 := by
        rw [hreader, BitReader.bitsRemaining, length_append]
        omega
      rw [length_cons, show toks.length + 1 + fuel = toks.length + fuel + 1 by omega,
        tokenLoop, if_neg hopen, if_neg hinside, if_neg hmore, hrun]
      exact hloop fuel
    · exact ⟨hsame2.header.trans hsame.header, hsame2.endBit.trans hsame.endBit,
        hsame2.tables.trans hsame.tables, hsame2.ready.trans hsame.ready⟩
    · rw [hreader2, hsame.endBit]

theorem tokens_length_le (hcodes : ∀ tok ∈ tokens, Codes lens tok) :
    tokens.length ≤ (tokens.flatMap (tokenBits lens)).length := by
  induction tokens with
  | nil => exact le_rfl
  | cons tok tokens ih =>
    have hpos := tokenBits_length_pos (hcodes tok mem_cons_self)
    have htail := ih fun t ht => hcodes t (mem_cons_of_mem _ ht)
    rw [flatMap_cons, length_append, length_cons]
    omega

/-- The decoder reads a block, runs through its tokens and stands before the padding
behind them. -/
theorem block_run {freq : Frequencies} {lastBlock : Bool}
    (hblock : BlockStep m win st freq tokens st')
    (hwrite : writeBlock freq tokens lastBlock = some bytes) (h : Tracks frame m win s st)
    (hreader : s.reader = ⟨List.replicate (padding consumed) false ++ (ofBytes bytes ++ rest),
      consumed, false⟩) :
    ∃ d header reader s1, nextBlock s.decoder s.reader = some (d, header, reader) ∧
      header.tablePresent = true ∧
      overranBlock header (blockEndBit header) reader.consumed = false ∧
      (∀ fuel, tokenLoop frame (tokens.length + fuel) (enterBlock s d header reader)
        = tokenLoop frame fuel s1) ∧
      Tracks frame m win s1 st' ∧
      s1.reader = ⟨List.replicate (padding s1.endBit) false ++ rest, s1.endBit, false⟩ ∧
      s1.header.lastBlockInFile = lastBlock ∧
      tokens.length + s1.reader.bits.length < s.reader.bits.length := by
  obtain ⟨d, header, start, hnext, hread, hshorter⟩ := nextBlock_writeBlock hblock.sized
    hblock.chain.bounded hwrite h.flavour rest consumed
  have hcount := tokens_length_le hblock.codes
  rw [← hreader] at hnext
  generalize hreader' : BitReader.mk _ start false = reader at hnext
  have htracks : Tracks frame m win (enterBlock s d header reader) st := by
    rw [hread.decoder]
    exact { h with }
  obtain ⟨s1, hrun, htracks1, hsame, hreader1⟩ := tokenLoop_tokens htracks hread.tables
    hblock.chain hblock.codes hreader'.symm hread.endBit
  have hend : s1.endBit = blockEndBit header := hsame.endBit
  refine ⟨d, header, reader, s1, hnext, hread.present, ?_, hrun, htracks1, ?_, ?_, ?_⟩
  · rw [hread.endBit, ← hreader', overranBlock]
    simp
  · rw [hreader1, hend, hread.endBit, show (enterBlock s d header reader).endBit
      = blockEndBit header from rfl, hread.endBit]
  · rw [hsame.header]
    exact hread.last
  · rw [hreader1, hreader]
    simp only [length_append, length_replicate, ofBytes_length]
    omega

/-- **The decoder follows a stream of blocks to the end of the member.** -/
theorem tokenLoop_stream {fuel : Nat} (hstream : Stream m win st bytes st')
    (hsingle : frame.singleBlock = false)
    (hfinal : st'.pos = m.enc.length) (h : Tracks frame m win s st)
    (hreader : s.reader = ⟨List.replicate (padding consumed) false ++ (ofBytes bytes ++ rest),
      consumed, false⟩)
    (hfuel : s.reader.bits.length ≤ fuel) :
    ∃ d header reader s', nextBlock s.decoder s.reader = some (d, header, reader) ∧
      header.tablePresent = true ∧
      overranBlock header (blockEndBit header) reader.consumed = false ∧
      tokenLoop frame fuel (enterBlock s d header reader) = some s' ∧
      Tracks frame m win s' st' ∧
      overranBlock s'.header s'.endBit s'.reader.consumed = false := by
  -- at the end of the member the loop stops wherever the stream is
  have hstop : ∀ {s1 : Session} {st1 : LzState} (fuel : Nat), Tracks frame m win s1 st1 →
      st1.pos = m.enc.length → tokenLoop frame (fuel + 1) s1 = some s1 := by
    intro s1 st1 fuel htracks hend
    rw [tokenLoop, if_pos (by rw [htracks.total, htracks.dest, hend])]
  have hwithin : ∀ {s1 : Session} {more : List Bool},
      s1.reader = ⟨List.replicate (padding s1.endBit) false ++ more, s1.endBit, false⟩ →
      overranBlock s1.header s1.endBit s1.reader.consumed = false := by
    intro s1 more hread
    rw [hread, overranBlock]
    simp
  induction hstream generalizing s consumed rest fuel with
  | @last st st1 freq tokens bytes hblock hwrite =>
    obtain ⟨d, header, reader, s1, hnext, hpresent, hover, hrun, htracks, hreader1, -, hshorter⟩ :=
      block_run hblock hwrite h hreader
    obtain ⟨k, rfl⟩ : ∃ k, fuel = tokens.length + (k + 1) := ⟨fuel - tokens.length - 1, by omega⟩
    exact ⟨d, header, reader, s1, hnext, hpresent, hover,
      (hrun (k + 1)).trans (hstop k htracks hfinal), htracks, hwithin hreader1⟩
  | @cons st st1 st2 freq tokens bytes tail hblock hwrite hrest ih =>
    rw [ofBytes_append, append_assoc] at hreader
    obtain ⟨d, header, reader, s1, hnext, hpresent, hover, hrun, htracks, hreader1, hlast,
      hshorter⟩ := block_run hblock hwrite h hreader
    obtain ⟨k, rfl⟩ : ∃ k, fuel = tokens.length + (k + 1) := ⟨fuel - tokens.length - 1, by omega⟩
    by_cases hend : st1.pos = m.enc.length
    · exact ⟨d, header, reader, s1, hnext, hpresent, hover,
        (hrun (k + 1)).trans (hstop k htracks hend), htracks.of_stream hrest hend,
        hwithin hreader1⟩
    · obtain ⟨d2, header2, reader2, s2, hnext2, hpresent2, -, hrun2, htracks2, hover2⟩ :=
        @ih s1 _ _ k hfinal htracks hreader1 (by omega)
      refine ⟨d, header, reader, s2, hnext, hpresent, hover, ?_, htracks2, hover2⟩
      have hopen : ¬ s1.totalWritten ≥ frame.destSize := by
        rw [htracks.total, htracks.dest]
        have hle := htracks.inMode.inMember.total_le
        omega
      have hdone : s1.reader.consumed ≥ s1.endBit := by rw [hreader1]
      rw [hrun (k + 1), tokenLoop, if_neg hopen, if_pos hdone, hwithin hreader1, hsingle, hlast,
        hnext2]
      simp only [Option.bind_eq_bind, Option.bind_some, hpresent2]
      exact hrun2
  | forget _ ih => exact ih hfinal h.forget hreader hfuel

/-! ## One call -/

/-- The decoder between two members: its window is the history, and it agrees with
what the writer knows of the repeat distances and the last length. -/
structure Ready (d : Decompressor50) (prior : List UInt8) (reps : List Nat) (lastLen : Nat) :
    Prop where
  allowed : d.dictionaryTooLarge = false
  flavour : d.useExtraDist = false
  holding : Holding d.engine prior
  base : d.fileBase = prior.length
  reps : RepsAgree reps d.oldDist
  last : lastLen ≠ 0 → d.lastLength = lastLen

/-- A decoder that has just been made, or whose call is not solid, starts with an
empty history. -/
structure Usable (d : Decompressor50) : Prop where
  allowed : d.dictionaryTooLarge = false
  flavour : d.useExtraDist = false
  size : 0x10000 ≤ d.engine.winSize

/-- The state in which a member starts. -/
def startState (reps : List Nat) (lastLen : Nat) (mode : Mode) : LzState where
  pos := 0
  reps := reps
  lastLen := lastLen
  mode := mode

/-- What is asked of a member: its two forms have one length, and without filters
they agree. -/
structure Member.WellFormed (m : Member) (mode : Mode) : Prop where
  lengths : m.enc.length = m.orig.length
  nonempty : 0 < m.enc.length
  size : m.prior.length + m.enc.length ≤ Core.sizeMax
  start : (mode = .plain ∧ m.enc = m.orig) ∨ mode = .region 0

theorem unsetDistances_agree : RepsAgree unsetDistances unsetDistances := by
  refine ⟨rfl, rfl, ?_⟩
  intro i distance hdistance _
  exact hdistance

/-- The resets at the start of a call leave the decoder ready for the member. -/
theorem beginCall_ready {prior : List UInt8} {solid : Bool}
    (h : if solid then Ready d prior reps lastLen
      else Usable d ∧ prior = [] ∧ reps = unsetDistances ∧ lastLen = 0) :
    Ready (d.beginCall solid false) prior reps lastLen ∧
      (d.beginCall solid false).memberStart = prior.length ∧
      (d.beginCall solid false).engine.filters = [] ∧
      (d.beginCall solid false).engine.lastFlushed = 0 ∧
      (d.beginCall solid false).engine.emitted = [] ∧
      (d.beginCall solid false).engine.winSize = d.engine.winSize := by
  cases solid with
  | true =>
    have hready : Ready d prior reps lastLen := h
    exact ⟨⟨hready.allowed, hready.flavour, (hready.holding.requeue []).reflush 0 [], hready.base,
      hready.reps, hready.last⟩, hready.base, rfl, rfl, rfl, rfl⟩
  | false =>
    obtain ⟨husable, rfl, rfl, rfl⟩ := (show _ ∧ _ ∧ _ ∧ _ from h)
    have hsize := husable.size
    refine ⟨⟨husable.allowed, husable.flavour, ⟨hsize, ?_, ?_, ?_⟩, rfl, unsetDistances_agree,
      fun hne => absurd rfl hne⟩, rfl, rfl, rfl, rfl, rfl⟩
    · exact (Nat.zero_mod _).symm
    · exact (decide_eq_false (by
        simp only [length_nil, Nat.le_zero]
        exact Nat.ne_of_gt (lt_of_lt_of_le (by decide) hsize))).symm
    · intro p hp
      exact absurd hp (Nat.not_lt_zero p)

/-- The decoder before the first token of a member. -/
theorem Ready.tracks (h : Ready d m.prior reps lastLen) (hm : Member.WellFormed m mode)
    (hstart : d.memberStart = m.prior.length) (hfilters : d.engine.filters = [])
    (hflushed : d.engine.lastFlushed = 0) (hemitted : d.engine.emitted = [])
    (hwin : win.Within d.engine.winSize) (reader : BitReader) (header : BlockHeader)
    (endBit : Nat) :
    Tracks ⟨m.enc.length, false, m.prior.length⟩ m win ⟨d, reader, header, endBit, 0, 0⟩
      (startState reps lastLen mode) := by
  have hsize := h.holding.size
  have hmember : InMember d.engine m 0 := by
    refine ⟨?_, Nat.zero_le _, hflushed.le, ?_, hm.lengths⟩
    · rw [take_zero, append_nil]
      exact h.holding
    · rw [hemitted, hflushed]
      rfl
  have hmode : d.engine.InMode m 0 mode := by
    rcases hm.start with ⟨rfl, hplain⟩ | rfl
    · refine ⟨hmember, hplain, hfilters, ?_⟩
      rw [flushCadence]
      omega
    · exact ⟨hmember, hfilters, hflushed⟩
  exact ⟨⟨rfl, rfl, rfl, hwin, hmode⟩, hstart, h.flavour, h.reps, h.last, Nat.zero_le _, hm.size,
    h.allowed⟩

/-- The last flush hands over what is left of the member. -/
theorem flushPending_end {engine : ApplyEngine} (h : engine.InMode m m.enc.length mode) :
    ∃ engine', engine.flushPending true m.prior.length m.enc.length m.enc.length = some engine' ∧
      Holding engine' (m.prior ++ m.enc) ∧ engine'.emitted.flatten = m.orig ∧
      engine'.winSize = engine.winSize := by
  have hall : m.enc.take m.enc.length = m.enc := take_length
  have horig : m.orig.take m.enc.length = m.orig := by
    rw [h.inMember.lengths]
    exact take_length
  match mode, h with
  | .plain, h =>
    have hlag := h.lag
    unfold flushCadence at hlag
    obtain ⟨engine', hrun, hmember, -, hflushed, hwin⟩ :=
      @plain_flush engine m m.enc.length m.enc.length true h.toInMember h.plain
        h.filters (by omega) le_rfl m.prior.length
    refine ⟨engine', hrun, ?_, ?_, hwin⟩
    · rw [← hall]
      exact hmember.holding
    · rw [hmember.emitted, hflushed, horig]
  | .region 0, h =>
    have hstart : RegionStart engine m m.enc.length := h
    have hempty : { engine with filters := [] } = engine := by
      rw [← hstart.filters]
    have hflush : engine.flushPending true m.prior.length m.enc.length m.enc.length
        = some engine := by
      unfold flushPending
      rw [hstart.filters, flushQueue, hempty]
      unfold flushPlainUpTo
      simp [hstart.flushed, flushLoop]
    refine ⟨engine, hflush, ?_, ?_, rfl⟩
    · rw [← hall]
      exact hstart.holding
    · rw [hstart.emitted, hstart.flushed, horig]
  | .region (rem + 1), h =>
    obtain ⟨_, -, -, -, -, -, hfit, -⟩ := RegionMode.region h
    omega

/-- What a call on the stream of a member returns. -/
structure Decoded (m : Member) (win : Reach) (st' : LzState) (result : CallResult) : Prop where
  content : result.chunks.flatten = m.orig
  written : result.written = m.orig.length
  ready : Ready result.decoder (m.prior ++ m.enc) st'.reps st'.lastLen
  window : win.Within result.decoder.engine.winSize

/-- **One call decodes the stream of a member to its content**, and leaves the
decoder ready for the next member of the chain. -/
theorem decompress_stream {solid : Bool} (h : if solid then Ready d m.prior reps lastLen
      else Usable d ∧ m.prior = [] ∧ reps = unsetDistances ∧ lastLen = 0)
    (hm : Member.WellFormed m mode) (hwin : win.Within d.engine.winSize)
    (hstream : Stream m win (startState reps lastLen mode) bytes st')
    (hfinal : st'.pos = m.enc.length) :
    ∃ result, d.decompress bytes m.enc.length solid = some result ∧ Decoded m win st' result := by
  obtain ⟨hready, hstart, hfilters, hflushed, hemitted, hsame⟩ := beginCall_ready h
  set d' := d.beginCall solid false with hd'
  have hreader : BitReader.ofBytes bytes
      = ⟨List.replicate (padding 0) false ++ (ofBytes bytes ++ []), 0, false⟩ := by
    rw [append_nil]
    rfl
  have htracks := hready.tracks hm hstart hfilters hflushed hemitted (hsame ▸ hwin)
    (BitReader.ofBytes bytes) ⟨0, 0, 0, 0, false, false⟩ 0
  obtain ⟨d1, header, reader, s', hnext, hpresent, hover, hrun, hend, hwithin⟩ :=
    @tokenLoop_stream _ _ _ _ _ _ _ [] 0 ((BitReader.ofBytes bytes).bits.length + 1)
      hstream rfl hfinal htracks hreader (Nat.le_succ _)
  have hbase : (if solid then d.fileBase else 0) = m.prior.length := by
    cases solid with
    | true => exact (show Ready d m.prior reps lastLen from h).base
    | false => rw [(show _ ∧ m.prior = [] ∧ _ ∧ _ from h).2.1]; rfl
  have hallowed : d.dictionaryTooLarge = false := by
    cases solid with
    | true => exact (show Ready d m.prior reps lastLen from h).allowed
    | false => exact (show Usable d ∧ _ ∧ _ ∧ _ from h).1.allowed
  have hnonempty : bytes.length ≠ 0 := by
    intro hzero
    rw [length_eq_zero_iff.mp hzero] at hnext
    cases hnext
  have hin := hend.inMode
  rw [hfinal] at hin
  obtain ⟨engine, hflush, hholding, hcontent, hsize⟩ := flushPending_end hin
  have hpos := hm.nonempty
  have hbound := hm.size
  have htotal : s'.totalWritten = m.enc.length := hend.total.trans hfinal
  have hfinish : finishCall ⟨m.enc.length, false, m.prior.length⟩ s'
      = some ⟨{ s'.decoder with
          engine := engine, fileBase := m.prior.length + m.enc.length }, engine.emitted,
          m.enc.length, s'.header.lastBlockInFile⟩ := by
    unfold finishCall
    rw [hwithin]
    simp [htotal, hflush]
  refine ⟨⟨{ s'.decoder with
      engine := engine, fileBase := m.prior.length + m.enc.length }, engine.emitted,
      m.enc.length, s'.header.lastBlockInFile⟩, ?_, hcontent, hm.lengths,
    ⟨hend.allowed, hend.flavour, hholding, ?_, hend.reps, hend.last⟩, ?_⟩
  · unfold decompress decompressInternal
    rw [if_neg (by omega)]
    simp only [hallowed, Bool.false_eq_true, if_false, hbase]
    rw [if_neg (by omega), if_neg (by omega), ← hd']
    rw [hnext]
    simp only [Option.bind_eq_bind, Option.bind_some, hpresent, hover]
    simp only [enterBlock] at hrun
    rw [hrun]
    exact hfinish
  · rw [length_append]
  · simp only [hsize]
    exact hend.window

end Decompressor50

end OpenRar.Compress
