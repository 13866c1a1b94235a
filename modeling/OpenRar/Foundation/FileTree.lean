import Mathlib

/-!
# A tree of directories, files and symbolic links

A tree gives each place, a list of names from the root of the file system on, what
stands there.  It is closed: what has something below it is a directory.

`follow` resolves a path as a file system does, component by component, and replaces a
link it meets by the components of its target; `locate` leaves a last name alone.

The second half is confinement.  A link text that climbs only at its start, and no
further than the directory of the link lies below `root`, is confined; when every link
below `root` is, no resolution that starts below `root` leaves it.
-/

namespace OpenRar.FileTree

open List Option

/-- A component of a path as the file system reads it. -/
inductive Component (N : Type) where
  | here
  | up
  | name (n : N)
deriving DecidableEq

/-- The text of a symbolic link. -/
structure Target (N : Type) where
  absolute : Bool
  components : List (Component N)
deriving DecidableEq

/-- Where the resolution of a link text starts, for a link in the directory `place`. -/
def Target.start {N : Type} (g : Target N) (place : List N) : List N :=
  if g.absolute then [] else place

inductive Node (N β : Type) where
  | dir
  | file (bytes : List β)
  | link (target : Target N)
deriving DecidableEq

def Node.isLink {N β : Type} : Node N β → Bool
  | .link _ => true
  | _ => false

theorem Node.isLink_iff {N β : Type} {v : Node N β} : v.isLink = true ↔ ∃ g, v = .link g := by
  cases v <;> simp [Node.isLink]

variable {N β : Type} [DecidableEq N]

/-- The first entry of a place in a list of nodes. -/
def nodeIn (nodes : List (List N × Node N β)) (p : List N) : Option (Node N β) :=
  (nodes.find? fun e => e.1 = p).map Prod.snd

@[simp]
theorem nodeIn_cons (q : List N) (v : Node N β) (nodes : List (List N × Node N β)) (p : List N) :
    nodeIn ((q, v) :: nodes) p = if p = q then some v else nodeIn nodes p := by
  unfold nodeIn
  by_cases h : p = q
  · simp [h]
  · simp [h, Ne.symm h]

@[simp]
theorem nodeIn_filter (q : List N) (nodes : List (List N × Node N β)) (p : List N) :
    nodeIn (nodes.filter fun e => e.1 ≠ q) p = if p = q then none else nodeIn nodes p := by
  induction nodes with
  | nil => simp [nodeIn]
  | cons e nodes ih =>
    obtain ⟨r, v⟩ := e
    by_cases hr : r = q
    · subst hr
      rw [filter_cons_of_neg (by simp), ih, nodeIn_cons]
      by_cases hp : p = r <;> simp [hp]
    · rw [filter_cons_of_pos (by simpa using hr), nodeIn_cons, nodeIn_cons, ih]
      by_cases hp : p = r
      · simp [hp, hr]
      · simp [hp]

theorem exists_mem_of_nodeIn {nodes : List (List N × Node N β)} {p : List N} {v : Node N β}
    (h : nodeIn nodes p = some v) : (p, v) ∈ nodes := by
  obtain ⟨⟨q, w⟩, hfind, rfl⟩ := map_eq_some_iff.mp h
  have hq : q = p := by simpa using List.find?_some hfind
  exact hq ▸ mem_of_find?_eq_some hfind

/-- A closed set of nodes. -/
structure Tree (N β : Type) [DecidableEq N] where
  nodes : List (List N × Node N β)
  closed : ∀ (p : List N) (n : N), nodeIn nodes (p ++ [n]) ≠ none → nodeIn nodes p = some .dir

namespace Tree

variable (t : Tree N β)

/-- What stands at a place. -/
def node (p : List N) : Option (Node N β) := nodeIn t.nodes p

variable {p base names : List N} {n : N}

theorem node_parent (h : t.node (p ++ [n]) ≠ none) : t.node p = some .dir := t.closed p n h

/-- A directory is below directories only. -/
theorem node_dropLast (h : t.node p = some .dir) : t.node p.dropLast = some .dir := by
  rcases eq_nil_or_concat p with rfl | ⟨q, n, rfl⟩
  · exact h
  · rw [concat_eq_append] at h ⊢
    rw [dropLast_concat]
    exact t.node_parent (by rw [h]; exact some_ne_none _)

/-- The root directory alone. -/
def empty : Tree N β where
  nodes := [([], .dir)]
  closed := by
    intro p n h
    simp [nodeIn] at h

def isLinkAt (p : List N) : Bool :=
  match t.node p with
  | some v => v.isLink
  | none => false

theorem isLinkAt_iff {t : Tree N β} :
    t.isLinkAt p = true ↔ ∃ g, t.node p = some (.link g) := by
  unfold isLinkAt
  cases h : t.node p with
  | none => simp
  | some v => simp [Node.isLink_iff]

theorem node_ne_link {t : Tree N β} (h : ∀ e ∈ t.nodes, e.2.isLink = false) (p : List N)
    (g : Target N) : t.node p ≠ some (.link g) := by
  intro hg
  have := h _ (exists_mem_of_nodeIn hg)
  exact Bool.noConfusion this

/-- Is something below the place? -/
def hasChild (p : List N) : Bool :=
  t.nodes.any fun e => e.1 ≠ [] ∧ e.1.dropLast = p

theorem hasChild_of_node {t : Tree N β} (h : t.node (p ++ [n]) ≠ none) :
    t.hasChild p = true := by
  obtain ⟨v, hv⟩ := ne_none_iff_exists'.mp h
  refine any_eq_true.mpr ⟨_, exists_mem_of_nodeIn hv, ?_⟩
  simp

/-- A node in a directory, where no directory stands. -/
def put (d : List N) (n : N) (v : Node N β) (hd : t.node d = some .dir)
    (hfree : t.node (d ++ [n]) ≠ some .dir) : Tree N β where
  nodes := (d ++ [n], v) :: t.nodes
  closed := by
    intro q m hchild
    rw [nodeIn_cons] at hchild ⊢
    -- what is put has nothing below it, since it was no directory
    have hput : q ≠ d ++ [n] := by
      rintro rfl
      rw [if_neg (by simp)] at hchild
      exact hfree (t.closed _ _ hchild)
    rw [if_neg hput]
    by_cases hq : q ++ [m] = d ++ [n]
    · exact (append_inj_left' hq rfl) ▸ hd
    · rw [if_neg hq] at hchild
      exact t.closed _ _ hchild

@[simp]
theorem node_put (d : List N) (n : N) (v : Node N β) (hd : t.node d = some .dir)
    (hfree : t.node (d ++ [n]) ≠ some .dir) (p : List N) :
    (t.put d n v hd hfree).node p = if p = d ++ [n] then some v else t.node p :=
  nodeIn_cons _ _ _ _

/-- `mkdir`, `symlink` and `link`: nothing may stand at the place yet. -/
def create [DecidableEq β] (t : Tree N β) (d : List N) (n : N) (v : Node N β) :
    Option (Tree N β) :=
  if h : t.node d = some .dir ∧ t.node (d ++ [n]) = none then
    some (t.put d n v h.1 (by simp [h.2]))
  else none

/-- Several nodes one after another; one that cannot be created is left out. -/
def plant [DecidableEq β] (t : Tree N β) (nodes : List (List N × N × Node N β)) : Tree N β :=
  nodes.foldl (fun t (d, n, v) => (t.create d n v).getD t) t

/-- `rename` of a file onto a place: what stands there is replaced, unless it is a
directory. -/
def replace [DecidableEq β] (t : Tree N β) (d : List N) (n : N) (v : Node N β) :
    Option (Tree N β) :=
  if h : t.node d = some .dir ∧ t.node (d ++ [n]) ≠ some .dir then
    some (t.put d n v h.1 h.2)
  else none

/-- `remove`: a file, a link or an empty directory. -/
def remove (p : List N) : Option (Tree N β) :=
  if h : t.hasChild p = false then
    some
      { nodes := t.nodes.filter fun e => e.1 ≠ p
        closed := by
          intro q m hchild
          rw [nodeIn_filter] at hchild ⊢
          have hne : q ++ [m] ≠ p := by
            intro hq
            rw [if_pos hq] at hchild
            exact hchild rfl
          rw [if_neg hne] at hchild
          have hq : q ≠ p := by
            rintro rfl
            rw [hasChild_of_node hchild] at h
            exact Bool.noConfusion h
          rw [if_neg hq]
          exact t.closed _ _ hchild }
  else none

variable {d : List N} {v : Node N β} {jump : List N → List (Component N) → Option (List N)}

theorem create_eq_some [DecidableEq β] {t t' : Tree N β} (h : t.create d n v = some t') :
    t.node (d ++ [n]) = none ∧ ∀ p, t'.node p = if p = d ++ [n] then some v else t.node p := by
  unfold create at h
  split at h
  · next hfree =>
    cases h
    exact ⟨hfree.2, fun p => node_put t d n v _ _ p⟩
  · cases h

theorem replace_eq_some [DecidableEq β] {t t' : Tree N β} (h : t.replace d n v = some t') :
    t.node (d ++ [n]) ≠ some .dir ∧
      ∀ p, t'.node p = if p = d ++ [n] then some v else t.node p := by
  unfold replace at h
  split at h
  · next hfree =>
    cases h
    exact ⟨hfree.2, fun p => node_put t d n v _ _ p⟩
  · cases h

theorem remove_eq_some {t t' : Tree N β} {q : List N} (h : t.remove q = some t') (p : List N) :
    t'.node p = if p = q then none else t.node p := by
  unfold remove at h
  split at h
  · cases h
    exact nodeIn_filter q t.nodes p
  · cases h

/-! ## Path resolution -/

/-- The components of a path one after another; what a link asks for is left to
`jump`.  A last component need not exist. -/
def walkWith (jump : List N → List (Component N) → Option (List N)) :
    List N → List (Component N) → Option (List N)
  | place, [] => some place
  | place, .here :: rest => walkWith jump place rest
  | place, .up :: rest => walkWith jump place.dropLast rest
  | place, .name n :: rest =>
    match t.node (place ++ [n]) with
    | some (.link g) => jump (g.start place) (g.components ++ rest)
    | some .dir => walkWith jump (place ++ [n]) rest
    | _ => if rest = [] then some (place ++ [n]) else none

/-- The place that a path leads to, with at most `budget` links on the way. -/
def follow : Nat → List N → List (Component N) → Option (List N)
  | 0 => walkWith t fun _ _ => none
  | budget + 1 => walkWith t (follow budget)

/-- The place that a path names; a last name is not followed. -/
def locate (budget : Nat) (place : List N) (path : List (Component N)) : Option (List N) :=
  match path.getLast? with
  | some (.name n) => (follow t budget place path.dropLast).map (· ++ [n])
  | _ => follow t budget place path

/-! ## Paths without links -/

theorem node_of_append (below : List N)
    (h : t.node (p ++ below) = some .dir) : t.node p = some .dir := by
  induction below using List.reverseRecOn with
  | nil => rwa [append_nil] at h
  | append_singleton below n ih =>
    rw [← append_assoc] at h
    exact ih (t.node_parent (by rw [h]; exact some_ne_none _))

theorem walkWith_dirs (jump : List N → List (Component N) → Option (List N))
    (h : t.node (base ++ names) = some .dir) :
    walkWith t jump base (names.map .name) = some (base ++ names) := by
  induction names generalizing base with
  | nil => simp [walkWith]
  | cons n names ih =>
    rw [append_cons] at h
    rw [map_cons, walkWith, t.node_of_append names h]
    exact (ih h).trans (by rw [← append_cons])

theorem follow_eq_walkWith (budget : Nat) : ∃ jump, follow t budget = walkWith t jump := by
  cases budget with
  | zero => exact ⟨_, rfl⟩
  | succ budget => exact ⟨_, rfl⟩

/-- A link is found under its own path. -/
theorem isLinkAt_false_of_locate {t : Tree N β} {budget : Nat}
    (h : ∀ q, locate t budget base ((names ++ [n]).map .name) = some q → t.isLinkAt q = false) :
    t.isLinkAt (base ++ names ++ [n]) = false := by
  by_contra hlink
  obtain ⟨g, hg⟩ := isLinkAt_iff.mp (Bool.eq_true_of_not_eq_false hlink)
  have hdir : t.node (base ++ names) = some .dir :=
    t.node_parent (by rw [hg]; exact some_ne_none _)
  obtain ⟨jump, hjump⟩ := follow_eq_walkWith t budget
  have hlocate :
      locate t budget base ((names ++ [n]).map .name) = some (base ++ names ++ [n]) := by
    unfold locate
    simp [hjump, walkWith_dirs t jump hdir]
  exact hlink (h _ hlocate)

/-- No link among the places on the way from `base` along `names`. -/
def Linkless (base names : List N) : Prop :=
  ∀ i, i < names.length → t.isLinkAt (base ++ names.take (i + 1)) = false

theorem Linkless.head {t : Tree N β}
    (h : Linkless t base (n :: names)) : t.isLinkAt (base ++ [n]) = false := by
  simpa using h 0 (Nat.succ_pos _)

theorem Linkless.tail {t : Tree N β}
    (h : Linkless t base (n :: names)) : Linkless t (base ++ [n]) names := by
  intro i hi
  have := h (i + 1) (Nat.succ_lt_succ hi)
  rwa [take_succ_cons, append_cons] at this

/-- A path that goes on behind linkless names has passed through directories. -/
theorem walkWith_linkless {t : Tree N β}
    (h : Linkless t base names) {rest : List (Component N)} (hrest : rest ≠ [])
    (hwalk : walkWith t jump base (names.map .name ++ rest) = some p) :
    walkWith t jump (base ++ names) rest = some p ∧
      (t.node base = some .dir → t.node (base ++ names) = some .dir) := by
  induction names generalizing base with
  | nil =>
    rw [append_nil]
    exact ⟨hwalk, id⟩
  | cons n names ih =>
    have hmore : names.map Component.name ++ rest ≠ [] := by simp [hrest]
    rw [map_cons, cons_append, walkWith] at hwalk
    rw [append_cons]
    split at hwalk
    · next g hg =>
      -- a link on the way contradicts the scan
      have hlink := isLinkAt_iff.mpr ⟨g, hg⟩
      rw [h.head] at hlink
      exact Bool.noConfusion hlink
    · next hdir =>
      obtain ⟨hstep, hdirs⟩ := ih h.tail hwalk
      exact ⟨hstep, fun _ => hdirs hdir⟩
    · rw [if_neg hmore] at hwalk
      cases hwalk

/-- Linkless names alone lead where they say. -/
theorem walkWith_names {t : Tree N β} (h : Linkless t base names)
    (hwalk : walkWith t jump base (names.map .name) = some p) : p = base ++ names := by
  induction names generalizing base with
  | nil => simpa [walkWith, eq_comm] using hwalk
  | cons n names ih =>
    rw [map_cons, walkWith] at hwalk
    rw [append_cons]
    split at hwalk
    · next g hg =>
      have hlink := isLinkAt_iff.mpr ⟨g, hg⟩
      rw [h.head] at hlink
      exact Bool.noConfusion hlink
    · exact ih h.tail hwalk
    · obtain ⟨hnil, hp⟩ : names.map Component.name = ([] : List (Component N)) ∧
        base ++ [n] = p := by
        simpa using hwalk
      rw [map_eq_nil_iff.mp hnil, append_nil, hp]

end Tree

/-! ## Confinement -/

/-- How far a path climbs at its start; nothing for one that climbs behind a name. -/
def climb : List (Component N) → Option Nat
  | [] => some 0
  | .here :: rest => climb rest
  | .up :: rest => (climb rest).map (· + 1)
  | .name _ :: rest => if .up ∈ rest then none else some 0

theorem climb_of_not_mem {path : List (Component N)} (h : .up ∉ path) : climb path = some 0 := by
  induction path with
  | nil => rfl
  | cons c rest ih =>
    obtain ⟨hc, hrest⟩ := not_or.mp (mem_cons.not.mp h)
    cases c with
    | here => exact ih hrest
    | up => exact absurd rfl hc
    | name n => exact if_neg hrest

theorem climb_append {path rest : List (Component N)} {k : Nat} (h : climb path = some k)
    (hrest : .up ∉ rest) : climb (path ++ rest) = some k := by
  induction path generalizing k with
  | nil =>
    cases h
    exact climb_of_not_mem hrest
  | cons c path ih =>
    cases c with
    | here => exact ih h
    | up =>
      obtain ⟨j, hj, rfl⟩ := map_eq_some_iff.mp h
      rw [cons_append, climb, ih hj]
      rfl
    | name n =>
      rw [climb] at h
      split at h
      · cases h
      · next hpath =>
        cases h
        rw [cons_append, climb, if_neg]
        simp [hpath, hrest]

/-- A link text that stays within `depth` directories above the directory of its link. -/
def Target.confinedAt (g : Target N) (depth : Nat) : Bool :=
  !g.absolute && (climb g.components).any (· ≤ depth)

theorem Target.confinedAt_iff {g : Target N} {depth : Nat} :
    g.confinedAt depth = true ↔
      g.absolute = false ∧ ∃ k, climb g.components = some k ∧ k ≤ depth := by
  unfold Target.confinedAt
  cases climb g.components with
  | none => simp
  | some k => simp

theorem Target.confinedAt_mono {g : Target N} {d e : Nat} (hde : d ≤ e)
    (h : g.confinedAt d = true) : g.confinedAt e = true := by
  obtain ⟨hrel, k, hk, hkd⟩ := confinedAt_iff.mp h
  exact confinedAt_iff.mpr ⟨hrel, k, hk, hkd.trans hde⟩

/-- Every link below `root` is confined to what `root` has above it there. -/
def Confined (root : List N) (t : Tree N β) : Prop :=
  ∀ (below : List N) (n : N) (g : Target N),
    t.node (root ++ below ++ [n]) = some (.link g) → g.confinedAt below.length = true

namespace Confined

variable {root : List N} {t : Tree N β}

/-- The links of `t'` are links of `t`. -/
theorem mono {t' : Tree N β} (h : Confined root t)
    (hlinks : ∀ p g, t'.node p = some (.link g) → t.node p = some (.link g)) :
    Confined root t' :=
  fun below n g hg => h below n g (hlinks _ g hg)

variable {below : List N} {path : List (Component N)} {k : Nat}

/-- One walk below `root`, when the walks it jumps to stay there.  The invariant is that
the rest of the path climbs no further than the place is deep. -/
theorem walkWith_inside (h : Confined root t)
    {jump : List N → List (Component N) → Option (List N)}
    (hjump : ∀ below path k p, climb path = some k → k ≤ below.length →
      jump (root ++ below) path = some p → root <+: p) (hk : climb path = some k)
    (hdepth : k ≤ below.length) {p : List N}
    (hwalk : t.walkWith jump (root ++ below) path = some p) :
    root <+: p := by
  induction path generalizing below k with
  | nil =>
    cases hwalk
    exact prefix_append root below
  | cons c rest ih =>
    cases c with
    | here => exact ih hk hdepth hwalk
    | up =>
      obtain ⟨j, hj, rfl⟩ := map_eq_some_iff.mp hk
      have hne : below ≠ [] := ne_nil_of_length_pos (by omega)
      rw [Tree.walkWith, dropLast_append_of_ne_nil hne] at hwalk
      exact ih hj (by rw [length_dropLast]; omega) hwalk
    | name n =>
      have hrest : .up ∉ rest := by
        intro hup
        rw [climb, if_pos hup] at hk
        cases hk
      rw [Tree.walkWith] at hwalk
      split at hwalk
      · next g hg =>
        obtain ⟨hrel, j, hj, hjd⟩ := Target.confinedAt_iff.mp (h below n g hg)
        rw [Target.start, hrel] at hwalk
        exact hjump below _ j p (climb_append hj hrest) hjd hwalk
      · rw [append_assoc] at hwalk
        exact ih (climb_of_not_mem hrest) (Nat.zero_le _) hwalk
      · split at hwalk
        · cases hwalk
          rw [append_assoc]
          exact prefix_append root _
        · cases hwalk

/-- No resolution leaves `root`, however many links it takes. -/
theorem follow_inside (h : Confined root t) (budget : Nat) (hk : climb path = some k)
    (hdepth : k ≤ below.length)
    {p : List N} (hfollow : t.follow budget (root ++ below) path = some p) : root <+: p := by
  induction budget generalizing below path k p with
  | zero =>
    refine h.walkWith_inside ?_ hk hdepth hfollow
    intro _ _ _ _ _ _ hnone
    cases hnone
  | succ budget ih =>
    exact h.walkWith_inside (fun _ _ _ _ hk hdepth hjump => ih hk hdepth hjump) hk hdepth hfollow

end Confined
end OpenRar.FileTree
