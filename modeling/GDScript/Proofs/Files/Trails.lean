import GDScript.Proofs.Files.Tree
import Mathlib.Data.List.Sort

/-!
# The trails of a directory tree

The files of a directory tree stand at the ends of trails. Going through the tree in the order of the
names finds the trails to all files with a fitting name (`Directory.mem_trailsBelow`), sorted as trails
are (`Directory.pairwise_trailsBelow`), so that they are the only such list (`Directory.Lists`). The
path of a file is its trail joined to the path of the directory (`Directory.filesBelow_eq`).
-/

namespace GDScript

/-! ### The order of names -/

namespace Text

/-- The order of texts is the lexicographic order of their code units. -/
theorem lessEq_iff (s t : Text) : lessEq s t = true ↔ s ≤ t := by
  show lessEq s t = true ↔ ¬ t < s
  induction s generalizing t with
  | nil => simp [lessEq]
  | cons u s ih =>
    cases t with
    | nil => simp [lessEq]
    | cons v t =>
      rw [lessEq, List.cons_lt_cons_iff, not_or, not_and]
      by_cases huv : u = v
      · subst huv
        simp [ih]
      · have hbeq : ¬ (u == v) = true := by simpa using huv
        -- units that differ are ordered one way or the other
        have hlt : u < v ↔ ¬ v < u := by
          rw [UInt16.lt_iff_toNat_lt, UInt16.lt_iff_toNat_lt]
          have hne : u.toNat ≠ v.toNat := fun h => huv (UInt16.toNat_inj.mp h)
          omega
        rw [if_neg hbeq, decide_eq_true_eq, hlt]
        exact ⟨fun h => ⟨h, fun heq => absurd heq.symm huv⟩, And.left⟩

theorem lessEq_trans (r s t : Text) (h : lessEq r s = true) (h' : lessEq s t = true) :
    lessEq r t = true := by
  rw [lessEq_iff] at *
  exact List.le_trans h h'

theorem lessEq_total (s t : Text) : (lessEq s t || lessEq t s) = true := by
  rw [Bool.or_eq_true, lessEq_iff, lessEq_iff]
  exact List.le_total s t

end Text

namespace Directory

open GDScript.Path (trailPath)

variable {root root' entries entries' : Directory} {entry : Entry} {path extension name : Text}
  {trail : List Text} {bytes : List UInt8}

theorem mem_inOrder {e : Text × Entry} : e ∈ inOrder entries ↔ e ∈ entries :=
  (List.mergeSort_perm entries _).mem_iff

/-- Distinct names come in increasing order. -/
theorem pairwise_inOrder (hnodup : (entries.map Prod.fst).Nodup) :
    (inOrder entries).Pairwise fun a b => a.1 < b.1 := by
  have hle : (inOrder entries).Pairwise fun a b => Text.lessEq a.1 b.1 = true :=
    List.pairwise_mergeSort (fun a b c => Text.lessEq_trans a.1 b.1 c.1)
      (fun a b => Text.lessEq_total a.1 b.1) entries
  have hne : (inOrder entries).Pairwise fun a b => a.1 ≠ b.1 :=
    List.pairwise_map.mp (((List.mergeSort_perm entries _).map Prod.fst).nodup_iff.mpr hnodup)
  refine (hle.and hne).imp fun {a b} h => ?_
  have hcases := List.le_iff_lt_or_eq.mp ((Text.lessEq_iff a.1 b.1).mp h.1)
  exact hcases.resolve_right h.2

theorem sortEntries_eq (entries : Directory) :
    sortEntries entries = entries.map fun e => (e.1, sortEntry e.2) := by
  induction entries with
  | nil => rfl
  | cons e entries ih => rw [sortEntries, ih, List.map_cons]

/-- Sorting the directories below first makes no difference. -/
theorem sorted_eq (entries : Directory) :
    sorted entries = (inOrder entries).map fun e => (e.1, sortEntry e.2) := by
  rw [sorted, sortEntries_eq]
  unfold inOrder
  symm
  apply List.map_mergeSort
  exact fun a _ b _ => rfl

theorem mem_sorted_file :
    (name, Entry.file bytes) ∈ sorted entries ↔ (name, .file bytes) ∈ entries := by
  rw [sorted_eq, List.mem_map]
  constructor
  · rintro ⟨⟨other, entry⟩, hmem, heq⟩
    cases entry <;> cases heq
    exact mem_inOrder.mp hmem
  · exact fun h => ⟨_, mem_inOrder.mpr h, rfl⟩

theorem mem_sorted_directory {inner : Directory} :
    (name, Entry.directory inner) ∈ sorted entries ↔
      ∃ original : Directory, (name, .directory original) ∈ entries ∧ inner = sorted original := by
  rw [sorted_eq, List.mem_map]
  constructor
  · rintro ⟨⟨other, entry⟩, hmem, heq⟩
    cases entry <;> cases heq
    exact ⟨_, mem_inOrder.mp hmem, rfl⟩
  · rintro ⟨original, hmem, rfl⟩
    exact ⟨_, mem_inOrder.mpr hmem, rfl⟩

theorem hasFile_sorted : (sorted entries).HasFile trail bytes ↔ entries.HasFile trail bytes := by
  constructor
  · intro h
    induction trail generalizing entries with
    | nil => exact absurd rfl h.ne_nil
    | cons name trail ih =>
      cases h with
      | file h => exact .file (mem_sorted_file.mp h)
      | inside h hfile =>
        obtain ⟨original, hmem, rfl⟩ := mem_sorted_directory.mp h
        exact .inside hmem (ih hfile)
  · intro h
    induction h with
    | file h => exact .file (mem_sorted_file.mpr h)
    | inside h hfile ih => exact .inside (mem_sorted_directory.mpr ⟨_, h, rfl⟩) ih

/-! ### The trails of a listing -/

mutual

/-- The trails to the files at or below an entry, whose names end in an extension. -/
def trailsAt (extension name : Text) : Entry → List (List Text)
  | .file _ => if List.isSuffixOf extension name then [[name]] else []
  | .directory entries => (trailsBelow extension entries).map (name :: ·)
  | .link _ => []

/-- The trails to the files below a directory, whose names end in an extension. -/
def trailsBelow (extension : Text) : List (Text × Entry) → List (List Text)
  | [] => []
  | (name, entry) :: rest => trailsAt extension name entry ++ trailsBelow extension rest

end

theorem trailsBelow_eq_flatMap (extension : Text) (entries : Directory) :
    trailsBelow extension entries = entries.flatMap fun e => trailsAt extension e.1 e.2 := by
  induction entries with
  | nil => rfl
  | cons e entries ih => rw [trailsBelow, ih, List.flatMap_cons]

mutual

/-- The files at or below an entry are those at the ends of its trails. -/
theorem filesAt_eq (path extension name : Text) : (entry : Entry) →
    filesAt path extension name entry = (trailsAt extension name entry).map (trailPath path)
  | .file _ => by
    rw [filesAt, trailsAt]
    split <;> rfl
  | .directory entries => by
    rw [filesAt, trailsAt, filesBelow_eq, List.map_map]
    rfl
  | .link _ => rfl

/-- The files below a directory are those at the ends of its trails. -/
theorem filesBelow_eq (path extension : Text) : (entries : List (Text × Entry)) →
    filesBelow path extension entries = (trailsBelow extension entries).map (trailPath path)
  | [] => rfl
  | (name, entry) :: rest => by
    rw [filesBelow, trailsBelow, List.map_append, filesAt_eq, filesBelow_eq]

end

/-- The last name of a trail ends in an extension. -/
def EndsIn (extension : Text) (trail : List Text) : Prop :=
  ∃ name, trail.getLast? = some name ∧ extension <:+ name

theorem endsIn_singleton : EndsIn extension [name] ↔ extension <:+ name :=
  ⟨fun ⟨_, hlast, hsuffix⟩ => by cases hlast; exact hsuffix, fun h => ⟨name, rfl, h⟩⟩

theorem endsIn_cons (hne : trail ≠ []) :
    EndsIn extension (name :: trail) ↔ EndsIn extension trail := by
  obtain ⟨next, rest, rfl⟩ := List.exists_cons_of_ne_nil hne
  rw [EndsIn, List.getLast?_cons_cons]
  exact Iff.rfl

/-- A trail at an entry ends there, or goes on in the directory that the entry is. -/
theorem mem_trailsAt : trail ∈ trailsAt extension name entry ↔
    (∃ bytes, entry = .file bytes ∧ trail = [name] ∧ extension <:+ name) ∨
      ∃ inner rest, entry = .directory inner ∧ trail = name :: rest ∧
        rest ∈ trailsBelow extension inner := by
  cases entry with
  | file bytes =>
    rw [trailsAt]
    -- a file is listed if its name ends with the extension
    by_cases hsuffix : extension <:+ name
    · rw [if_pos (List.isSuffixOf_iff_suffix.mpr hsuffix)]
      simp [hsuffix]
    · rw [if_neg fun h => hsuffix (List.isSuffixOf_iff_suffix.mp h)]
      simp [hsuffix]
  | directory entries =>
    rw [trailsAt]
    simp [eq_comm, and_comm]
  | link target => simp [trailsAt]

/-- The trails below a directory are those of its files with a fitting name. -/
theorem mem_trailsBelow : trail ∈ trailsBelow extension entries ↔
    (∃ bytes, entries.HasFile trail bytes) ∧ EndsIn extension trail := by
  rw [trailsBelow_eq_flatMap, List.mem_flatMap]
  -- each name of the trail leads one directory down
  induction trail generalizing entries with
  | nil =>
    constructor
    · rintro ⟨e, hmem, htrail⟩
      rcases mem_trailsAt.mp htrail with ⟨_, _, heq, _⟩ | ⟨_, _, _, heq, _⟩ <;> cases heq
    · rintro ⟨⟨bytes, hfile⟩, -⟩
      exact absurd rfl hfile.ne_nil
  | cons name trail ih =>
    constructor
    · rintro ⟨⟨other, entry⟩, hmem, htrail⟩
      rcases mem_trailsAt.mp htrail with ⟨bytes, rfl, heq, hsuffix⟩ | ⟨inner, rest, rfl, heq, hrest⟩
      · cases heq
        exact ⟨⟨bytes, .file hmem⟩, endsIn_singleton.mpr hsuffix⟩
      · cases heq
        rw [trailsBelow_eq_flatMap, List.mem_flatMap, ih] at hrest
        obtain ⟨⟨bytes, hfile⟩, hends⟩ := hrest
        exact ⟨⟨bytes, .inside hmem hfile⟩, (endsIn_cons hfile.ne_nil).mpr hends⟩
    · rintro ⟨⟨bytes, hfile⟩, hends⟩
      cases hfile with
      | file hmem =>
        exact ⟨_, hmem, mem_trailsAt.mpr (.inl ⟨bytes, rfl, rfl, endsIn_singleton.mp hends⟩)⟩
      | @inside _ inner _ _ _ hmem hfile =>
        refine ⟨_, hmem, mem_trailsAt.mpr (.inr ⟨inner, trail, rfl, rfl, ?_⟩)⟩
        rw [trailsBelow_eq_flatMap, List.mem_flatMap, ih]
        exact ⟨⟨bytes, hfile⟩, (endsIn_cons hfile.ne_nil).mp hends⟩

theorem exists_eq_cons_of_mem_trailsAt (h : trail ∈ trailsAt extension name entry) :
    ∃ rest, trail = name :: rest := by
  rcases mem_trailsAt.mp h with ⟨_, _, heq, _⟩ | ⟨_, rest, _, heq, _⟩
  · exact ⟨[], heq⟩
  · exact ⟨rest, heq⟩

/-- The trails below the directories of a sorted tree are sorted. -/
theorem pairwise_trailsBelow (extension : Text) (htree : entries.IsTree) :
    (trailsBelow extension (sorted entries)).Pairwise (· < ·) := by
  refine IsTree.induction (P := fun entries =>
    (trailsBelow extension (sorted entries)).Pairwise (· < ·)) (fun entries htree ih => ?_) htree
  rw [trailsBelow_eq_flatMap, List.pairwise_flatMap, sorted_eq]
  constructor
  · -- the trails of one entry first: they share its name and go on below it
    intro e he
    obtain ⟨⟨name, entry⟩, hmem, rfl⟩ := List.mem_map.mp he
    cases entry with
    | file bytes =>
      rw [sortEntry, trailsAt]
      split
      · exact List.pairwise_singleton _ _
      · exact .nil
    | directory inner =>
      rw [sortEntry, trailsAt, List.pairwise_map]
      exact (ih name inner (mem_inOrder.mp hmem)).imp fun h =>
        List.cons_lt_cons_iff.mpr (.inr ⟨rfl, h⟩)
    | link target => exact .nil
  · -- Trails of different entries differ in the first name.
    rw [List.pairwise_map]
    refine (pairwise_inOrder htree.nodup).imp fun {a b} hlt s hs t ht => ?_
    obtain ⟨s, rfl⟩ := exists_eq_cons_of_mem_trailsAt hs
    obtain ⟨t, rfl⟩ := exists_eq_cons_of_mem_trailsAt ht
    exact List.cons_lt_cons_iff.mpr (.inl hlt)

/-! ### Listings -/

/--
The trails to the files of a tree whose names end in an extension, in increasing order. Trails are
compared at the first name that differs, and names at the first code unit: so the files of a
directory stand together, and in each directory the entries come in the order of their names.
-/
structure Lists (entries : Directory) (extension : Text) (trails : List (List Text)) : Prop where
  mem_iff : ∀ trail, trail ∈ trails ↔
    (∃ bytes, entries.HasFile trail bytes) ∧ EndsIn extension trail
  sorted : trails.Pairwise (· < ·)

theorem lists_trailsBelow (extension : Text) (htree : entries.IsTree) :
    entries.Lists extension (trailsBelow extension (sorted entries)) where
  mem_iff trail := by simp only [mem_trailsBelow, hasFile_sorted]
  sorted := pairwise_trailsBelow extension htree

namespace Lists

variable {trails trails' : List (List Text)}

theorem nodup (h : entries.Lists extension trails) : trails.Nodup := by
  refine h.sorted.imp fun {s t} hlt heq => ?_
  rw [heq] at hlt
  exact List.lt_irrefl t hlt

theorem nodup_paths (h : entries.Lists extension trails) (htree : entries.IsTree)
    (hpath : path ≠ []) : (trails.map (trailPath path)).Nodup := by
  refine List.Nodup.map_on (fun s hs t ht heq => ?_) h.nodup
  obtain ⟨⟨bytes, hfile⟩, -⟩ := (h.mem_iff s).mp hs
  obtain ⟨⟨bytes', hfile'⟩, -⟩ := (h.mem_iff t).mp ht
  exact Path.trailPath_injective hpath hfile.ne_nil hfile'.ne_nil (hfile.isName htree)
    (hfile'.isName htree) heq

end Lists

/-- Trees with files at the ends of the same trails, as far as these end in an extension. -/
def SameFiles (extension : Text) (entries entries' : Directory) : Prop :=
  ∀ trail, EndsIn extension trail →
    ((∃ bytes, entries.HasFile trail bytes) ↔ ∃ bytes, entries'.HasFile trail bytes)

theorem SameTree.sameFiles (h : SameTree entries entries') (extension : Text) :
    SameFiles extension entries entries' := by
  intro trail _
  simp only [h.hasFile_iff]

/-- Trees with the same files have the same trails to them. -/
theorem SameFiles.trailsBelow_eq (h : SameFiles extension entries entries')
    (htree : entries.IsTree) (htree' : entries'.IsTree) :
    trailsBelow extension (sorted entries) = trailsBelow extension (sorted entries') := by
  have hlists := lists_trailsBelow extension htree
  have hlists' := lists_trailsBelow extension htree'
  have hmem : ∀ trail, trail ∈ trailsBelow extension (sorted entries) ↔
      trail ∈ trailsBelow extension (sorted entries') := by
    intro trail
    rw [hlists.mem_iff, hlists'.mem_iff]
    exact and_congr_left fun hends => h trail hends
  have hperm := (List.perm_ext_iff_of_nodup hlists.nodup hlists'.nodup).mpr hmem
  exact hperm.eq_of_pairwise (fun s t _ _ hlt hgt => absurd hgt (List.lt_asymm hlt)) hlists.sorted
    hlists'.sorted

theorem pairwise_names_inOrder (htree : entries.IsTree) :
    ((inOrder entries).map Prod.fst).Pairwise (· < ·) :=
  List.pairwise_map.mpr (pairwise_inOrder htree.nodup)

/-- The names come in one order, whatever the order of the entries is. -/
theorem SameTree.names_inOrder (h : SameTree entries entries') (htree : entries.IsTree) :
    (inOrder entries).map Prod.fst = (inOrder entries').map Prod.fst := by
  have hperm : ((inOrder entries).map Prod.fst).Perm ((inOrder entries').map Prod.fst) :=
    ((List.mergeSort_perm entries _).map Prod.fst).trans
      (h.perm_names.trans ((List.mergeSort_perm entries' _).map Prod.fst).symm)
  exact hperm.eq_of_pairwise (fun s t _ _ hlt hgt => absurd hgt (List.lt_asymm hlt))
    (pairwise_names_inOrder htree) (pairwise_names_inOrder (h.isTree htree))

end Directory

end GDScript
