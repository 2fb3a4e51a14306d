import GDScript.Files.Directory
import GDScript.Proofs.Files.Path

/-!
# Directory trees

A directory tree has distinct names in each of its directories (`Directory.IsTree`). A file of it
stands at the end of a trail of names that goes through directories only (`Directory.HasFile`), so
neither at the end of a link nor behind one. Two trees are the same up to the order of the entries
(`Directory.SameTree`), which changes nothing of this (`Directory.SameTree.hasFile_iff`), and what
stands under a name in one of them stands there in the other one (`Directory.SameTree.lookup`).
-/

namespace GDScript

/-! ### Trees -/

/-- An entry with entries of distinct names in each directory at or below it. -/
inductive Entry.IsTree : Entry → Prop where
  | file (bytes : List UInt8) : IsTree (.file bytes)
  | link (target : Text) : IsTree (.link target)
  | directory {entries : Directory} (nodup : (entries.map Prod.fst).Nodup)
      (names : ∀ e ∈ entries, Path.IsName e.1) (below : ∀ e ∈ entries, IsTree e.2) :
      IsTree (.directory entries)

namespace Directory

open GDScript.Path (IsName)

variable {entries entries' : Directory} {entry : Entry} {name : Text} {trail : List Text}
  {bytes : List UInt8}

/-- A directory tree, the entries of each directory being of distinct names. -/
def IsTree (entries : Directory) : Prop := Entry.IsTree (.directory entries)

namespace IsTree

theorem nodup (h : entries.IsTree) : (entries.map Prod.fst).Nodup := by
  cases h with
  | directory nodup names below => exact nodup

/-- An entry of a tree has a name, never a path. -/
theorem isName (h : entries.IsTree) (he : (name, entry) ∈ entries) : IsName name := by
  cases h with
  | directory nodup names below => exact names _ he

/-- What stands in a tree is a tree. -/
theorem of_mem (h : entries.IsTree) (he : (name, entry) ∈ entries) : entry.IsTree := by
  cases h with
  | directory nodup names below => exact below _ he

/-- What holds of a directory as soon as it holds of every directory in it holds of every tree. -/
theorem induction {P : Directory → Prop}
    (step : ∀ entries : Directory, entries.IsTree →
      (∀ name inner, (name, Entry.directory inner) ∈ entries → P inner) → P entries)
    (h : entries.IsTree) : P entries := by
  -- on the entry, since the induction of the predicate goes through entries of every kind
  have hall : ∀ entry : Entry, entry.IsTree → ∀ inner, entry = .directory inner → P inner := by
    intro entry hentry
    induction hentry with
    | file bytes => exact fun inner heq => by cases heq
    | link target => exact fun inner heq => by cases heq
    | directory nodup names below ih =>
      intro inner heq
      cases heq
      exact step _ (.directory nodup names below) fun name inner hmem => ih _ hmem inner rfl
  exact hall _ h entries rfl

end IsTree

/-- What is found under a name stands there. -/
theorem mem_of_lookup (h : entries.lookup name = some entry) : (name, entry) ∈ entries := by
  obtain ⟨front, back, rfl, -⟩ := List.lookup_eq_some_iff.mp h
  exact List.mem_append_right front List.mem_cons_self

/-- Where names are distinct no entry hides another one. -/
theorem lookup_of_mem (hnodup : (entries.map Prod.fst).Nodup) (h : (name, entry) ∈ entries) :
    entries.lookup name = some entry := by
  obtain ⟨front, back, rfl⟩ := List.append_of_mem h
  rw [List.map_append, List.map_cons, List.nodup_append] at hnodup
  refine List.lookup_eq_some_iff.mpr ⟨front, back, rfl, fun e he => ?_⟩
  have hne := hnodup.2.2 e.1 (List.mem_map_of_mem he) name List.mem_cons_self
  exact bne_iff_ne.mpr hne.symm

/-- Under a name of a tree stands one entry. -/
theorem IsTree.eq_of_mem {entry' : Entry} (htree : entries.IsTree) (h : (name, entry) ∈ entries)
    (h' : (name, entry') ∈ entries) : entry = entry' := by
  have heq := lookup_of_mem htree.nodup h
  rw [lookup_of_mem htree.nodup h'] at heq
  exact (Option.some.inj heq).symm

/-- In a directory a file with the given bytes stands at the end of a trail of names. -/
inductive HasFile : Directory → List Text → List UInt8 → Prop where
  | file {entries : Directory} {name : Text} {bytes : List UInt8}
      (h : (name, Entry.file bytes) ∈ entries) : HasFile entries [name] bytes
  | inside {entries inner : Directory} {name : Text} {trail : List Text} {bytes : List UInt8}
      (h : (name, Entry.directory inner) ∈ entries) (hfile : HasFile inner trail bytes) :
      HasFile entries (name :: trail) bytes

theorem HasFile.ne_nil (h : entries.HasFile trail bytes) : trail ≠ [] := by
  cases h with
  | file h => exact List.cons_ne_nil _ _
  | inside h hfile => exact List.cons_ne_nil _ _

/-- The trail of a file consists of names. -/
theorem HasFile.isName (h : entries.HasFile trail bytes) (htree : entries.IsTree) :
    ∀ n ∈ trail, IsName n := by
  induction h with
  | file h => simpa using htree.isName h
  | inside h hfile ih => exact List.forall_mem_cons.mpr ⟨htree.isName h, ih (htree.of_mem h)⟩

/-- Directories that differ in the order of the entries at any depth. -/
inductive SameTree : Directory → Directory → Prop where
  | perm {entries entries' : Directory} (h : entries.Perm entries') : SameTree entries entries'
  | inside {front back inner inner' : Directory} {name : Text} (h : SameTree inner inner') :
      SameTree (front ++ (name, Entry.directory inner) :: back)
        (front ++ (name, Entry.directory inner') :: back)
  | trans {entries₁ entries₂ entries₃ : Directory} (h : SameTree entries₁ entries₂)
      (h' : SameTree entries₂ entries₃) : SameTree entries₁ entries₃

theorem SameTree.symm (h : SameTree entries entries') : SameTree entries' entries := by
  induction h with
  | perm h => exact .perm h.symm
  | inside h ih => exact .inside ih
  | trans h h' ih ih' => exact .trans ih' ih

/-- The files of a directory stand in another one that holds its files and, below, their like. -/
theorem HasFile.of_entries (h : entries.HasFile trail bytes)
    (hfile : ∀ name bytes, (name, Entry.file bytes) ∈ entries → (name, Entry.file bytes) ∈ entries')
    (hbelow : ∀ (name : Text) (inner : Directory), (name, Entry.directory inner) ∈ entries →
      ∃ inner' : Directory, (name, Entry.directory inner') ∈ entries' ∧
        ∀ trail bytes, inner.HasFile trail bytes → inner'.HasFile trail bytes) :
    entries'.HasFile trail bytes := by
  cases h with
  | file h => exact .file (hfile _ _ h)
  | inside h hinner =>
    obtain ⟨inner', hmem, hall⟩ := hbelow _ _ h
    exact .inside hmem (hall _ _ hinner)

/-- No file is lost when entries change their order. -/
theorem SameTree.hasFile (h : SameTree entries entries') (hf : entries.HasFile trail bytes) :
    entries'.HasFile trail bytes := by
  -- one change at a time: of the order here, of the order in one directory, and two changes in turn
  induction h generalizing trail bytes with
  | perm h =>
    exact hf.of_entries (fun _ _ hmem => h.mem_iff.mp hmem) fun name inner hmem =>
      ⟨inner, h.mem_iff.mp hmem, fun _ _ hin => hin⟩
  | @inside front back inner inner' name h ih =>
    refine hf.of_entries (fun other bytes hmem => ?_) fun other old hmem => ?_
    · simpa using hmem
    · rw [List.mem_append, List.mem_cons] at hmem
      rcases hmem with hmem | heq | hmem
      · exact ⟨old, List.mem_append_left _ hmem, fun _ _ hin => hin⟩
      · -- the directory that has been put in another order
        cases heq
        exact ⟨inner', by simp, fun _ _ hin => ih hin⟩
      · exact ⟨old, by simp [hmem], fun _ _ hin => hin⟩
  | trans h h' ih ih' => exact ih' (ih hf)

/-- The order of the entries changes nothing about the files. -/
theorem SameTree.hasFile_iff (h : SameTree entries entries') :
    entries.HasFile trail bytes ↔ entries'.HasFile trail bytes :=
  ⟨h.hasFile, h.symm.hasFile⟩

/-- The order of the entries does not matter to what a tree is. -/
theorem SameTree.isTree (h : SameTree entries entries') (htree : entries.IsTree) :
    entries'.IsTree := by
  induction h with
  | perm h =>
    exact .directory ((h.map Prod.fst).nodup_iff.mp htree.nodup)
      (fun e he => htree.isName (h.mem_iff.mpr he)) fun e he => htree.of_mem (h.mem_iff.mpr he)
  | @inside front back inner inner' name h ih =>
    have hinner' : inner'.IsTree := ih (htree.of_mem (List.mem_append_right _ List.mem_cons_self))
    have hmem : ∀ e : Text × Entry, e ∈ front ++ (name, Entry.directory inner') :: back →
        e = (name, .directory inner') ∨ e ∈ front ++ (name, Entry.directory inner) :: back := by
      intro e he
      rw [List.mem_append, List.mem_cons] at he
      rcases he with he | he | he
      · exact .inr (List.mem_append_left _ he)
      · exact .inl he
      · exact .inr (List.mem_append_right _ (List.mem_cons_of_mem _ he))
    -- the names of the directory are the old ones, only what stands under one of them is another
    -- tree
    refine .directory (by simpa using htree.nodup) (fun e he => ?_) fun e he => ?_
    · rcases hmem e he with rfl | he
      · exact htree.isName (List.mem_append_right _ List.mem_cons_self)
      · exact htree.isName he
    · rcases hmem e he with rfl | he
      · exact hinner'
      · exact htree.of_mem he
  | trans h h' ih ih' => exact ih' (ih htree)

/-! ### Trees that are alike -/

theorem SameTree.refl (entries : Directory) : SameTree entries entries := .perm (.refl entries)

/-- The names in a directory are the same ones, in another order. -/
theorem SameTree.perm_names (h : SameTree entries entries') :
    (entries.map Prod.fst).Perm (entries'.map Prod.fst) := by
  induction h with
  | perm h => exact h.map Prod.fst
  | inside h ih => simp
  | trans h h' ih ih' => exact ih.trans ih'

/-- A tree, and the same one up to the order of the entries. -/
structure Alike (entries entries' : Directory) : Prop where
  isTree : entries.IsTree
  same : SameTree entries entries'

end Directory

/-- Entries that are the same up to the order in which directories hold theirs. -/
inductive Entry.Alike : Entry → Entry → Prop where
  | file (bytes : List UInt8) : Alike (.file bytes) (.file bytes)
  | link (target : Text) : Alike (.link target) (.link target)
  | directory {entries entries' : Directory} (h : entries.Alike entries') :
      Alike (.directory entries) (.directory entries')

namespace Entry.Alike

variable {entry entry' entry'' : Entry}

theorem refl (h : entry.IsTree) : entry.Alike entry := by
  cases entry with
  | file bytes => exact .file bytes
  | directory entries => exact .directory ⟨h, .refl entries⟩
  | link target => exact .link target

theorem trans (h : entry.Alike entry') (h' : entry'.Alike entry'') : entry.Alike entry'' := by
  cases h with
  | file bytes => exact h'
  | link target => exact h'
  | directory hentries =>
    cases h' with
    | directory hentries' => exact .directory ⟨hentries.isTree, hentries.same.trans hentries'.same⟩

/-- Likeness of what is found, or not found, is transitive. -/
theorem rel_trans {found found' found'' : Option Entry} (h : Option.Rel Alike found found')
    (h' : Option.Rel Alike found' found'') : Option.Rel Alike found found'' := by
  cases h with
  | none => exact h'
  | some hentry =>
    cases h' with
    | some hentry' => exact .some (hentry.trans hentry')

end Entry.Alike

namespace Directory

variable {entries entries' : Directory}

/-- Under each name stands the like, or nothing does. -/
theorem SameTree.lookup (h : SameTree entries entries') (htree : entries.IsTree) (name : Text) :
    Option.Rel Entry.Alike (entries.lookup name) (entries'.lookup name) := by
  have hrefl : ∀ d : Directory, d.IsTree →
      Option.Rel Entry.Alike (d.lookup name) (d.lookup name) := by
    intro d hd
    cases hentry : d.lookup name with
    | none => exact .none
    | some entry => exact .some (.refl (hd.of_mem (mem_of_lookup hentry)))
  induction h with
  | @perm entries entries' h =>
    -- names are distinct, so the first entry with a name is the only one in any order
    have hsame : entries'.lookup name = entries.lookup name := by
      have hnodup := (h.map Prod.fst).nodup_iff.mp htree.nodup
      cases hentry : entries.lookup name with
      | some entry => exact lookup_of_mem hnodup (h.mem_iff.mp (mem_of_lookup hentry))
      | none =>
        rw [List.lookup_eq_none_iff] at hentry ⊢
        exact fun e he => hentry e (h.mem_iff.mpr he)
    rw [hsame]
    exact hrefl entries htree
  | @inside front back inner inner' other h ih =>
    -- the name is found in front of the changed directory, in it or behind it
    rw [List.lookup_append, List.lookup_append]
    cases hfront : front.lookup name with
    | some entry =>
      exact .some (.refl (htree.of_mem (List.mem_append_left _ (mem_of_lookup hfront))))
    | none =>
      rw [Option.none_or, Option.none_or, List.lookup_cons, List.lookup_cons]
      have hmem : (other, Entry.directory inner) ∈ front ++ (other, .directory inner) :: back :=
        List.mem_append_right front List.mem_cons_self
      cases hname : name == other with
      | true => exact .some (.directory ⟨htree.of_mem hmem, h⟩)
      | false =>
        cases hback : back.lookup name with
        | none => exact .none
        | some entry =>
          have hlast := List.mem_append_right front
            (List.mem_cons_of_mem (other, Entry.directory inner) (mem_of_lookup hback))
          exact .some (.refl (htree.of_mem hlast))
  | trans h h' ih ih' =>
    exact Entry.Alike.rel_trans (ih htree) (ih' (h.isTree htree))

end Directory

end GDScript
