import GDScript.Proofs.Files.Following

/-!
# The places of directories

A path to which a name is joined is resolved by its names alone: `..` takes the name in front of it
away, whether that is the name of a directory or of a link. Following the path may lead elsewhere, for
behind a link `..` is the directory above the one that the link leads to. `Disk.Holds` says that both
lead to the same directory; then each trail of its tree is found from the path
(`Disk.Holds.find_of_hasFile`). A path that is plain, no link standing in front of a `..` of it, has
this property (`Disk.Holds.of_isPlain`), and so has every path with a name joined to it
(`Disk.Holds.of_join`).
-/

namespace GDScript.Disk

open GDScript.Path (IsName)

variable {disk : Disk} {entries d : Directory} {entry : Entry} {path name : Text}
  {trail parts : List Text} {bytes : List UInt8} {links : Nat}

/-! ### Places -/

theorem ne_nil_of_find (h : disk.find path = .ok entry) : path ≠ [] := by
  intro hnil
  rw [hnil] at h
  cases h

theorem find_of_ne_nil (disk : Disk) (h : path ≠ []) :
    disk.find path =
      follow disk.root longestChain disk.root [] (disk.origin path ++ Path.parts path) := by
  unfold find
  rw [List.isEmpty_eq_false_iff.mpr h, if_neg Bool.false_ne_true]

/-- A directory with the given entries stands at a path, and where the resolved path leads, too. -/
structure Holds (disk : Disk) (path : Text) (entries : Directory) : Prop where
  found : disk.find path = .ok (.directory entries)
  resolved : follow disk.root longestChain disk.root [] (disk.origin path ++ Path.resolved path) =
    .ok (.directory entries)

namespace Holds

/-- A trail that a path is continued with is followed from the directory there. -/
theorem find_trailPath (h : disk.Holds path entries) :
    ∃ links stack, ∀ trail, trail ≠ [] → (∀ n ∈ trail, IsName n) →
      disk.find (Path.trailPath path trail) = follow disk.root links entries stack trail := by
  have hpath := ne_nil_of_find h.found
  obtain ⟨links, stack, hrest⟩ := (leads_of_follow_eq h.resolved).append
  refine ⟨links, stack, fun trail hne hnames => ?_⟩
  have horigin : disk.origin (Path.trailPath path trail) = disk.origin path := by
    unfold origin
    rw [Path.isAbsolute_trailPath hpath hnames]
  rw [find_of_ne_nil disk (Path.trailPath_ne_nil hpath hnames), horigin,
    Path.parts_trailPath hpath hne hnames, ← List.append_assoc]
  exact hrest trail

/-- A directory in the directory at a path is found under its own path. -/
theorem find_join {inner : Directory} (h : disk.Holds path entries) (htree : entries.IsTree)
    (hmem : (name, Entry.directory inner) ∈ entries) :
    disk.find (Path.join path name) = .ok (.directory inner) := by
  obtain ⟨links, stack, hfind⟩ := h.find_trailPath
  have hname := htree.isName hmem
  have hone : ∀ n ∈ [name], IsName n := by simpa using hname
  rw [← Path.trailPath_nil (Path.join path name), ← Path.trailPath_cons,
    hfind [name] (List.cons_ne_nil _ _) hone]
  apply Leads.follow_eq
  apply Leads.arrived
  exact walk_of_lookup hname (Directory.lookup_of_mem htree.nodup hmem) disk.root stack []

/-- A file in the tree at a path is found under the path of its trail. -/
theorem find_of_hasFile (h : disk.Holds path entries) (htree : entries.IsTree)
    (hfile : entries.HasFile trail bytes) :
    disk.find (Path.trailPath path trail) = .ok (.file bytes) := by
  obtain ⟨links, stack, hfind⟩ := h.find_trailPath
  rw [hfind trail hfile.ne_nil (hfile.isName htree)]
  exact Leads.follow_eq (.arrived (walk_of_hasFile hfile htree disk.root stack))

/-- A path with a name joined to it has been resolved. -/
theorem of_join (hpath : path ≠ []) (hname : IsName name)
    (h : disk.find (Path.join path name) = .ok (.directory entries)) :
    disk.Holds (Path.join path name) entries := by
  have hone : ∀ n ∈ [name], IsName n := by simpa using hname
  refine ⟨h, ?_⟩
  rw [find_of_ne_nil disk (ne_nil_of_find h)] at h
  rw [Path.join_eq hpath hname] at h ⊢
  obtain ⟨-, hparts, hresolved⟩ := Path.ofParts_trail (List.cons_ne_nil name []) hone
  rw [hresolved]
  rwa [hparts] at h

end Holds

/-! ### Plain paths -/

theorem foldl_enter_of_above_notMem (absolute : Bool) (parts names : List Text)
    (habove : Path.above ∉ parts) :
    parts.foldl (Path.enter absolute) names = (parts.filter isBusy).reverse ++ names := by
  induction parts generalizing names with
  | nil => rfl
  | cons part parts ih =>
    obtain ⟨hne, habove⟩ := List.ne_and_not_mem_of_not_mem_cons habove
    -- without a step outward every busy part is entered, and an idle one changes nothing
    cases hbusy : isBusy part with
    | false =>
      have henter : Path.enter absolute names part = names := by
        unfold Path.enter
        exact if_pos (isBusy_eq_false hbusy)
      rw [List.foldl_cons, henter, List.filter_cons_of_neg (by simp [hbusy]), ih names habove]
    | true =>
      have henter : Path.enter absolute names part = part :: names := by
        unfold Path.enter
        rw [isBusy_eq_true hbusy, beq_false_of_ne hne.symm]
        rfl
      rw [List.foldl_cons, henter, List.filter_cons_of_pos hbusy, ih _ habove, List.reverse_cons,
        List.append_assoc, List.singleton_append]

/-- The directory above, with those above it; above the root is the root. -/
def outward (here : Directory) : List Directory → Directory × List Directory
  | [] => (here, [])
  | outer :: more => (outer, more)

theorem walk_above (root here : Directory) (above : List Directory) (rest : List Text) :
    walk root here above (Path.above :: rest) =
      walk root (outward here above).1 (outward here above).2 rest := by
  cases above <;> rfl

/--
Where some resolved names, innermost first, lead from a place without a link: down by a name, or, in
front of all names, up.
-/
inductive Stands (start : Directory) (outside : List Directory) :
    List Text → Directory → List Directory → Prop where
  | start : Stands start outside [] start outside
  | up {names : List Text} {here : Directory} {above : List Directory}
      (h : Stands start outside names here above) (hnames : ∀ n ∈ names, n = Path.above) :
      Stands start outside (Path.above :: names) (outward here above).1 (outward here above).2
  | down {names : List Text} {here inner : Directory} {above : List Directory} {name : Text}
      (h : Stands start outside names here above) (hname : IsName name)
      (hentry : here.lookup name = some (.directory inner)) :
      Stands start outside (name :: names) inner (here :: above)

section

variable {root start here : Directory} {outside above : List Directory} {names : List Text}
  {absolute : Bool}

theorem Stands.walk_eq (h : Stands start outside names here above) (root : Directory)
    (rest : List Text) :
    walk root start outside (names.reverse ++ rest) = walk root here above rest := by
  induction h generalizing rest with
  | start => rfl
  | up h hnames ih =>
    rw [List.reverse_cons, List.append_assoc, List.singleton_append, ih, walk_above]
  | down h hname hentry ih =>
    rw [List.reverse_cons, List.append_assoc, List.singleton_append, ih,
      walk_of_lookup hname hentry]

/-- Going up among the names is going up on the disk. -/
theorem Stands.enter_above (h : Stands start outside names here above)
    (hroot : absolute = true → outside = []) :
    Stands start outside (Path.enter absolute names Path.above)
      (outward here above).1 (outward here above).2 := by
  -- above the place it begins at, a relative path goes on outward
  cases h with
  | start =>
    cases absolute with
    | true =>
      rw [hroot rfl]
      exact .start
    | false => exact Stands.up .start fun _ hn => absurd hn List.not_mem_nil
  | up h hnames =>
    exact Stands.up (.up h hnames) fun n hn => (List.mem_cons.mp hn).elim id (hnames n)
  -- a step outward takes back the name entered last
  | @down names here inner above name h hname hentry =>
    have henter : Path.enter absolute (name :: names) Path.above = names := by
      show (if (name == Path.above) = true then _ else names) = names
      rw [hname.beq_above, if_neg Bool.false_ne_true]
    rw [henter]
    exact h

/-- A name that a walk to a directory begins with stands for a directory itself. -/
theorem lookup_of_arrived {part : Text}
    (hidle : (part.isEmpty || part == Path.here) = false) (habove : (part == Path.above) = false)
    (h : walk root here above (part :: parts) = .arrived (.directory d)) :
    ∃ inner, here.lookup part = some (.directory inner) := by
  rw [walk_named root here above parts hidle habove] at h
  cases hentry : here.lookup part with
  | none => rw [hentry] at h; cases h
  | some entry =>
    rw [hentry] at h
    cases entry with
    | directory inner => exact ⟨inner, rfl⟩
    | file bytes =>
      dsimp only at h
      split at h <;> cases h
    -- behind a link the walk stops, so it does not arrive by itself
    | link target =>
      dsimp only at h
      split at h <;> cases h

/--
Parts that lead to a directory lead there once they have been resolved, if no link stands in front of
a `..` among them.
-/
theorem Leads.of_stands (hroot : absolute = true → outside = [])
    (h : Leads root links here above parts (.directory d))
    (hplain : ∀ front back, parts = front ++ Path.above :: back →
      ∃ there, walk root here above front = .arrived (.directory there))
    (hslash : ∀ p ∈ parts, CodeUnit.slash ∉ p) (hstands : Stands start outside names here above) :
    Leads root links start outside (parts.foldl (Path.enter absolute) names).reverse
      (.directory d) := by
  induction parts generalizing here above names with
  | nil =>
    refine h.of_walk_eq ?_
    rw [← hstands.walk_eq root, List.append_nil]
    rfl
  | cons part parts ih =>
    by_cases habove : Path.above ∈ part :: parts
    swap
    · -- nothing goes up from here, so but idle parts are lost
      rw [foldl_enter_of_above_notMem absolute _ names habove, List.reverse_append,
        List.reverse_reverse]
      exact (h.of_filter_eq (by simp)).of_walk_eq (hstands.walk_eq root _)
    obtain ⟨hpart, hparts⟩ := List.forall_mem_cons.mp hslash
    -- what the first part leads to, if it leads to a directory without a link
    have hnext : ∀ there upper, (∀ rest, walk root here above (part :: rest) =
        walk root there upper rest) → Stands start outside (Path.enter absolute names part)
        there upper →
        Leads root links start outside ((part :: parts).foldl (Path.enter absolute) names).reverse
          (.directory d) := by
      intro there upper hstep hthere
      refine ih (h.of_walk_eq (hstep parts).symm) (fun front back heq => ?_) hparts hthere
      obtain ⟨last, hlast⟩ := hplain (part :: front) back (by rw [heq, List.cons_append])
      exact ⟨last, (hstep front).symm.trans hlast⟩
    by_cases hup : part = Path.above
    · rw [hup] at hnext ⊢
      exact hnext _ _ (walk_above root here above) (hstands.enter_above hroot)
    · cases hidle : part.isEmpty || part == Path.here with
      | true =>
        refine hnext here above (fun rest => walk_idle root here above rest hidle) ?_
        unfold Path.enter
        rw [if_pos hidle]
        exact hstands
      | false =>
        -- a `..` stands behind it, so that it is neither a link nor a file
        have hbeq : (part == Path.above) = false := beq_false_of_ne hup
        obtain ⟨front, back, heq⟩ := List.append_of_mem habove
        obtain ⟨there, hthere⟩ := hplain front back heq
        cases front with
        | nil => exact absurd (List.cons.inj heq).1 hup
        | cons first front =>
          obtain ⟨rfl, -⟩ := List.cons.inj heq
          obtain ⟨inner, hentry⟩ := lookup_of_arrived hidle hbeq hthere
          have hname : IsName part := .of_part (by rw [hidle]; exact Bool.false_ne_true)
            (by rw [hbeq]; exact Bool.false_ne_true) hpart
          refine hnext inner (here :: above) (walk_of_lookup hname hentry root above) ?_
          rw [Path.enter_of_isName absolute names hname]
          exact .down hstands hname hentry

end

/-- No link stands in front of a `..` of the path. -/
def IsPlain (disk : Disk) (path : Text) : Prop :=
  ∀ front back, Path.parts path = front ++ Path.above :: back →
    ∃ there, walk disk.root disk.root [] (disk.origin path ++ front) = .arrived (.directory there)

/-- A path without `..` is plain, whatever links it meets. -/
theorem isPlain_of_above_notMem (disk : Disk) (h : Path.above ∉ Path.parts path) :
    disk.IsPlain path := by
  intro front back heq
  rw [heq] at h
  exact absurd (List.mem_append_right front List.mem_cons_self) h

/-- A path that meets no link at all is plain. -/
theorem isPlain_of_arrived (h : walk disk.root disk.root [] (disk.origin path ++ Path.parts path) =
    .arrived (.directory d)) : disk.IsPlain path := by
  intro front back heq
  rw [heq, ← List.append_assoc] at h
  obtain ⟨there, stack, hwalk⟩ := walk_append_of_arrived h
  refine ⟨there, ?_⟩
  have hfront := hwalk []
  rwa [List.append_nil] at hfront

/-- A plain path leads to the same directory once it has been resolved. -/
theorem Holds.of_isPlain (hplain : disk.IsPlain path)
    (hfound : disk.find path = .ok (.directory entries)) : disk.Holds path entries := by
  refine ⟨hfound, ?_⟩
  rw [find_of_ne_nil disk (ne_nil_of_find hfound)] at hfound
  have hleads := leads_of_follow_eq hfound
  apply Leads.follow_eq
  have hlead : (Path.lead (Path.isAbsolute path)).filter isBusy = [] := by
    cases Path.isAbsolute path <;> rfl
  by_cases habove : Path.above ∈ Path.parts path
  · -- the way to where the path begins meets no link either
    have hplace : ∃ start outside, (Path.isAbsolute path = true → outside = []) ∧ ∀ rest,
        walk disk.root disk.root [] (disk.origin path ++ rest) =
          walk disk.root start outside rest := by
      cases habsolute : Path.isAbsolute path with
      | true =>
        refine ⟨disk.root, [], fun _ => rfl, fun rest => ?_⟩
        unfold origin
        rw [if_pos habsolute, List.nil_append]
      | false =>
        obtain ⟨front, back, heq⟩ := List.append_of_mem habove
        obtain ⟨there, hthere⟩ := hplain front back heq
        obtain ⟨start, outside, hwalk⟩ := walk_append_of_arrived hthere
        exact ⟨start, outside, nofun, hwalk⟩
    obtain ⟨start, outside, hroot, hwalk⟩ := hplace
    have hresolved := (hleads.of_walk_eq (hwalk _).symm).of_stands hroot
      (fun front back heq => (hplain front back heq).imp fun there h => (hwalk front).symm.trans h)
      (fun p hp => Path.slash_notMem_of_mem_parts hp) Stands.start
    refine ((hresolved.of_walk_eq (hwalk _)).of_filter_eq ?_)
    simp [Path.resolved, Path.resolvedNames, hlead]
  · -- nothing is taken back, so both spellings have the same busy parts
    refine hleads.of_filter_eq ?_
    rw [Path.resolved, Path.resolvedNames, foldl_enter_of_above_notMem _ _ _ habove]
    simp [hlead]

end GDScript.Disk
