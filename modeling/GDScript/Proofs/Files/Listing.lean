import GDScript.Proofs.Files.Places
import GDScript.Proofs.Files.Trails

/-!
# Listing a directory

A listing goes through the entries of a directory in the order of their names and opens each directory
among them by its own path (`Disk.list_eq_bind`). This is the directory that has been listed unless the
path goes up behind a link. So `Disk.list_eq_iff_of_find` tells when a listing finds the files of the
tree at a path, and that it always does if the path is plain. The order in which the entries of the
directories come changes nothing (`Disk.list_eq_of_sameTree`).
-/

namespace GDScript

namespace Disk

open GDScript.Directory (EndsIn SameFiles SameTree inOrder mem_inOrder sorted trailsAt trailsBelow)
open GDScript.Path (trailPath)

variable {disk : Disk} {entries inner there : Directory} {entry : Entry}
  {path extension name : Text} {trail : List Text} {found : List (List Text)}

/-! ### The entries of a listing -/

theorem mapM_congr {α β ε : Type} {f g : α → Except ε β} {l : List α} (h : ∀ a ∈ l, f a = g a) :
    l.mapM f = l.mapM g := by
  induction l with
  | nil => rfl
  | cons a l ih =>
    obtain ⟨ha, hl⟩ := List.forall_mem_cons.mp h
    rw [List.mapM_cons, List.mapM_cons, ha, ih hl]

theorem mapM_ok {α β ε : Type} (g : α → β) (l : List α) :
    l.mapM (fun a => (.ok (g a) : Except ε β)) = .ok (l.map g) := by
  induction l with
  | nil => rfl
  | cons a l ih =>
    rw [List.mapM_cons, ih]
    rfl

/-- Where all goes well, each element has its result, and each result is the one of an element. -/
theorem exists_of_mapM_eq_ok {α β ε : Type} {f : α → Except ε β} {l : List α} {results : List β}
    (h : l.mapM f = .ok results) :
    (∀ a ∈ l, ∃ b ∈ results, f a = .ok b) ∧ ∀ b ∈ results, ∃ a ∈ l, f a = .ok b := by
  induction l generalizing results with
  | nil =>
    cases h
    exact ⟨by simp, by simp⟩
  | cons a l ih =>
    rw [List.mapM_cons] at h
    cases ha : f a with
    | error e => rw [ha] at h; cases h
    | ok b =>
      -- an error at any place would be the result of the whole
      cases hl : l.mapM f with
      | error e => rw [ha, hl] at h; cases h
      | ok more =>
        rw [ha, hl] at h
        cases h
        obtain ⟨hleft, hright⟩ := ih hl
        constructor
        · exact List.forall_mem_cons.mpr ⟨⟨b, List.mem_cons_self, ha⟩, fun c hc =>
            (hleft c hc).imp fun d h => ⟨List.mem_cons_of_mem b h.1, h.2⟩⟩
        · exact List.forall_mem_cons.mpr ⟨⟨a, List.mem_cons_self, ha⟩, fun d hd =>
            (hright d hd).imp fun c h => ⟨List.mem_cons_of_mem a h.1, h.2⟩⟩

theorem entriesAt_of_find (h : disk.find path = .ok (.directory entries)) :
    disk.entriesAt path = .ok entries := by
  rw [entriesAt, h]

theorem find_of_entriesAt (h : disk.entriesAt path = .ok entries) :
    disk.find path = .ok (.directory entries) := by
  unfold entriesAt at h
  split at h
  · next hfound =>
    cases h
    exact hfound
  · cases h
  · cases h

theorem list_of_find (h : disk.find path = .ok (.directory entries)) (extension : Text) :
    disk.list path extension = (do
      let found ← (inOrder entries).mapM fun e => disk.listEntry path extension e.1 e.2
      return found.flatten) := by
  rw [list, entriesAt_of_find h]
  rfl

/-- A directory is listed as the one that its path leads to. -/
theorem listEntry_directory (h : disk.find (Path.join path name) = .ok (.directory there))
    (inner : Directory) (extension : Text) :
    disk.listEntry path extension name (.directory inner) =
      .ok ((trailsBelow extension (sorted there)).map (trailPath (Path.join path name))) := by
  rw [listEntry, entriesAt_of_find h]
  exact congrArg Except.ok (Directory.filesBelow_eq _ _ _)

/-- An entry is listed as it stands if its directory is found where its path says. -/
theorem listEntry_eq (htree : entries.IsTree) (hmem : (name, entry) ∈ entries)
    (hopens : ∀ inner, entry = .directory inner → ∃ there : Directory, there.IsTree ∧
      disk.find (Path.join path name) = .ok (.directory there) ∧
        SameFiles extension inner there) :
    disk.listEntry path extension name entry =
      .ok ((trailsAt extension name (Directory.sortEntry entry)).map (trailPath path)) := by
  -- only a directory is looked for on the disk; files and links are known by their entries
  cases entry with
  | file bytes =>
    rw [Directory.sortEntry, ← Directory.filesAt_eq]
    rfl
  | directory inner =>
    obtain ⟨there, hthere, hfound, hsame⟩ := hopens inner rfl
    rw [listEntry_directory hfound, ← hsame.trailsBelow_eq (htree.of_mem hmem) hthere,
      Directory.sortEntry, trailsAt, List.map_map]
    rfl
  | link target =>
    rw [Directory.sortEntry, ← Directory.filesAt_eq]
    rfl

/-- Where each directory is found under its path, all files of the tree are found. -/
theorem list_eq_ok (htree : disk.root.IsTree) (hfound : disk.find path = .ok (.directory entries))
    (hopens : ∀ name inner, (name, Entry.directory inner) ∈ entries → ∃ there : Directory,
      disk.find (Path.join path name) = .ok (.directory there) ∧ SameFiles extension inner there) :
    disk.list path extension =
      .ok ((trailsBelow extension (sorted entries)).map (trailPath path)) := by
  have hentries := isTree_of_find htree hfound
  -- each entry is listed as its trails are, so the whole list is
  have heach := mapM_congr (l := inOrder entries)
    (f := fun e : Text × Entry => disk.listEntry path extension e.1 e.2)
    (g := fun e => .ok ((trailsAt extension e.1 (Directory.sortEntry e.2)).map (trailPath path)))
    fun e he => listEntry_eq hentries (mem_inOrder.mp he) fun inner heq => by
      have hmem : (e.1, Entry.directory inner) ∈ entries := heq ▸ mem_inOrder.mp he
      obtain ⟨there, hthere, hsame⟩ := hopens e.1 inner hmem
      exact ⟨there, isTree_of_find htree hthere, hthere, hsame⟩
  rw [list_of_find hfound, heach, mapM_ok, Directory.trailsBelow_eq_flatMap, Directory.sorted_eq,
    List.flatMap_map, List.map_flatMap]
  rfl

/-- From the place of a directory all files of its tree are found. -/
theorem Holds.list_eq_ok (h : disk.Holds path entries) (htree : disk.root.IsTree)
    (extension : Text) :
    disk.list path extension =
      .ok ((trailsBelow extension (sorted entries)).map (trailPath path)) := by
  have hentries := isTree_of_find htree h.found
  exact Disk.list_eq_ok htree h.found fun name inner hmem =>
    ⟨inner, h.find_join hentries hmem, fun _ _ => Iff.rfl⟩

/--
A listing reads a directory, and goes through its entries in the order of their names: a directory
among them is listed by its own path, and links are passed by.
-/
theorem list_eq_bind (htree : disk.root.IsTree) (path extension : Text) :
    disk.list path extension = (do
      let entries ← disk.entriesAt path
      let found ← (inOrder entries).mapM fun e => match e.2 with
        | .file _ => .ok (if List.isSuffixOf extension e.1 then [Path.join path e.1] else [])
        | .directory _ => disk.list (Path.join path e.1) extension
        | .link _ => .ok []
      return found.flatten) := by
  cases hentries : disk.entriesAt path with
  | error reason =>
    rw [list, hentries]
    rfl
  | ok entries =>
    have hfound := find_of_entriesAt hentries
    rw [list_of_find hfound]
    refine congrArg (· >>= _) (mapM_congr fun e he => ?_)
    obtain ⟨name, entry⟩ := e
    cases entry with
    | file bytes => rfl
    | link target => rfl
    | directory inner =>
      have hname := (isTree_of_find htree hfound).isName (mem_inOrder.mp he)
      dsimp only
      -- the directory that is found by name is the one that is listed
      cases hthere : disk.entriesAt (Path.join path name) with
      | error reason =>
        rw [listEntry, list, hthere]
        rfl
      | ok there =>
        have hplace := Holds.of_join (ne_nil_of_find hfound) hname (find_of_entriesAt hthere)
        rw [listEntry_directory hplace.found, hplace.list_eq_ok htree]

/-! ### The order of the entries -/

section

variable {disk' : Disk} {entry' : Entry}

theorem entriesAt_alike (hroot : disk.root.Alike disk'.root) (hworking : disk.working = disk'.working)
    (path : Text) :
    (∃ reason, disk.entriesAt path = .error reason ∧ disk'.entriesAt path = .error reason) ∨
      ∃ entries entries' : Directory, entries.Alike entries' ∧
        disk.entriesAt path = .ok entries ∧ disk'.entriesAt path = .ok entries' := by
  unfold entriesAt
  have halike := find_alike hroot hworking path
  generalize disk.find path = found, disk'.find path = found' at halike ⊢
  cases halike with
  | error obstacle => exact .inl ⟨_, rfl, rfl⟩
  | ok h =>
    cases h with
    | file bytes => exact .inl ⟨_, rfl, rfl⟩
    | link target => exact .inl ⟨_, rfl, rfl⟩
    | directory h => exact .inr ⟨_, _, h, rfl, rfl⟩

/-- Entries that are alike are listed alike. -/
theorem listEntry_alike (hroot : disk.root.Alike disk'.root) (hworking : disk.working = disk'.working)
    (path extension name : Text) (hentry : entry.Alike entry') :
    disk.listEntry path extension name entry = disk'.listEntry path extension name entry' := by
  cases hentry with
  | file bytes => rfl
  | link target => rfl
  | directory h =>
    unfold listEntry
    -- both disks find the like there, or fail with the same reason
    rcases entriesAt_alike hroot hworking (Path.join path name) with
      ⟨reason, hleft, hright⟩ | ⟨entries, entries', halike, hleft, hright⟩
    · rw [hleft, hright]
    · have htrails := (halike.same.sameFiles extension).trailsBelow_eq halike.isTree
        (halike.same.isTree halike.isTree)
      rw [hleft, hright]
      refine congrArg Except.ok ?_
      rw [Directory.filesBelow_eq, Directory.filesBelow_eq, htrails]

/-- What a listing makes of the entry under a name. -/
def listNamed (disk : Disk) (path extension : Text) (entries : Directory) (name : Text) :
    Except Text (List Text) :=
  match entries.lookup name with
  | some entry => disk.listEntry path extension name entry
  | none => .ok []

/-- A listing goes through the names of a directory in order. -/
theorem mapM_listNamed (disk : Disk) (path extension : Text) (htree : entries.IsTree) :
    ((inOrder entries).map Prod.fst).mapM (disk.listNamed path extension entries) =
      (inOrder entries).mapM fun e => disk.listEntry path extension e.1 e.2 := by
  rw [List.mapM_map]
  refine mapM_congr fun e he => ?_
  show disk.listNamed path extension entries e.1 = _
  rw [listNamed, Directory.lookup_of_mem htree.nodup (mem_inOrder.mp he)]

/-- The order in which the entries of the directories come changes nothing. -/
theorem list_eq_of_sameTree (htree : disk.root.IsTree) {root : Directory}
    (hsame : SameTree disk.root root) (path extension : Text) :
    Disk.list ⟨root, disk.working⟩ path extension = disk.list path extension := by
  generalize hother : Disk.mk root disk.working = other
  have hroot : disk.root.Alike other.root := hother ▸ ⟨htree, hsame⟩
  have hworking : disk.working = other.working := hother ▸ rfl
  rcases entriesAt_alike hroot hworking path with
    ⟨reason, hleft, hright⟩ | ⟨entries, entries', halike, hleft, hright⟩
  · rw [list, list, hleft, hright]
    rfl
  · have hentries := halike.isTree
    -- by name, since the entries themselves stand in another order on each disk
    have heach : ∀ name, disk.listNamed path extension entries name =
        other.listNamed path extension entries' name := by
      intro name
      unfold listNamed
      have hfound := halike.same.lookup hentries name
      generalize entries.lookup name = found, entries'.lookup name = found' at hfound ⊢
      cases hfound with
      | none => rfl
      | some hentry => exact listEntry_alike hroot hworking path extension name hentry
    rw [list_of_find (find_of_entriesAt hleft), list_of_find (find_of_entriesAt hright),
      ← mapM_listNamed _ _ _ hentries, ← mapM_listNamed _ _ _ (halike.same.isTree hentries),
      ← halike.same.names_inOrder hentries, mapM_congr fun name _ => heach name]

end

/-! ### When the files of a tree are found -/

/-- What a listing finds is found at an entry, and all that is found at an entry. -/
theorem mem_of_list_eq_ok {paths : List Text} (hfound : disk.find path = .ok (.directory entries))
    (hlist : disk.list path extension = .ok paths) :
    (∀ e ∈ entries, ∃ found, disk.listEntry path extension e.1 e.2 = .ok found ∧ found ⊆ paths) ∧
      ∀ p ∈ paths, ∃ e ∈ entries, ∃ found,
        disk.listEntry path extension e.1 e.2 = .ok found ∧ p ∈ found := by
  rw [list_of_find hfound] at hlist
  -- the list is what its entries gave, one after the other
  cases hresults : (inOrder entries).mapM fun e => disk.listEntry path extension e.1 e.2 with
  | error reason => rw [hresults] at hlist; cases hlist
  | ok results =>
    rw [hresults] at hlist
    cases hlist
    obtain ⟨hleft, hright⟩ := exists_of_mapM_eq_ok hresults
    constructor
    · intro e he
      obtain ⟨found, hmem, hentry⟩ := hleft e (mem_inOrder.mpr he)
      exact ⟨found, hentry, fun p hp => List.mem_flatten.mpr ⟨found, hmem, hp⟩⟩
    · intro p hp
      obtain ⟨found, hmem, hp⟩ := List.mem_flatten.mp hp
      obtain ⟨e, he, hentry⟩ := hright found hmem
      exact ⟨e, mem_inOrder.mp he, found, hentry, hp⟩

/-- A directory that can be listed is found under its path. -/
theorem exists_find_of_listEntry {found : List Text}
    (h : disk.listEntry path extension name (.directory inner) = .ok found) :
    ∃ there : Directory, disk.find (Path.join path name) = .ok (.directory there) ∧
      found = (trailsBelow extension (sorted there)).map (trailPath (Path.join path name)) := by
  cases hentries : disk.entriesAt (Path.join path name) with
  | error reason =>
    rw [listEntry, hentries] at h
    cases h
  | ok there =>
    have hthere := find_of_entriesAt hentries
    rw [listEntry_directory hthere] at h
    cases h
    exact ⟨there, hthere, rfl⟩

/-- Where a trail of at least two names is listed, the rest is one of the directory found there. -/
theorem mem_trailsBelow_of_list {rest : List Text} {paths : List Text}
    (htree : disk.root.IsTree) (hfound : disk.find path = .ok (.directory entries))
    (hlist : disk.list path extension = .ok paths)
    (hthere : disk.find (Path.join path name) = .ok (.directory there)) (hne : rest ≠ [])
    (hnames : ∀ n ∈ name :: rest, Path.IsName n) (hmem : trailPath path (name :: rest) ∈ paths) :
    rest ∈ trailsBelow extension (sorted there) := by
  have hpath := ne_nil_of_find hfound
  have hentries := isTree_of_find htree hfound
  have hcons : ∀ {other : Text} {more : List Text}, (∀ n ∈ other :: more, Path.IsName n) →
      trailPath path (name :: rest) = trailPath path (other :: more) → name = other ∧ rest = more :=
    fun hother heq => List.cons.inj (Path.trailPath_injective hpath (List.cons_ne_nil _ _)
      (List.cons_ne_nil _ _) hnames hother heq)
  obtain ⟨⟨other, entry⟩, he, found, hentry, hp⟩ := (mem_of_list_eq_ok hfound hlist).2 _ hmem
  have hother := hentries.isName he
  cases entry with
  | link target => cases hentry; cases hp
  | file bytes =>
    -- the path of a file is that of a single name
    have hone : trailPath path (name :: rest) = trailPath path [other] := by
      have hlisted : disk.listEntry path extension other (.file bytes) =
          .ok (if List.isSuffixOf extension other then [Path.join path other] else []) := rfl
      rw [hlisted] at hentry
      split at hentry <;> cases hentry
      · exact List.mem_singleton.mp hp
      · cases hp
    exact absurd (hcons (by simpa using hother) hone).2 hne
  | directory inner =>
    obtain ⟨there', hthere', rfl⟩ := exists_find_of_listEntry hentry
    obtain ⟨more, hmore, heq⟩ := List.mem_map.mp hp
    have htrail := (Directory.lists_trailsBelow extension (isTree_of_find htree hthere')).mem_iff more
    obtain ⟨⟨bytes, hfile⟩, -⟩ := htrail.mp hmore
    have hall := List.forall_mem_cons.mpr ⟨hother, hfile.isName (isTree_of_find htree hthere')⟩
    obtain ⟨rfl, rfl⟩ := hcons hall heq.symm
    rw [hthere] at hthere'
    cases hthere'
    exact hmore

/-- If a listing finds the files of the tree at a path, each directory there has those of its own. -/
theorem sameFiles_of_list_eq (htree : disk.root.IsTree)
    (hfound : disk.find path = .ok (.directory entries))
    (hlist : disk.list path extension =
      .ok ((trailsBelow extension (sorted entries)).map (trailPath path)))
    (hmem : (name, Entry.directory inner) ∈ entries) :
    ∃ there : Directory, disk.find (Path.join path name) = .ok (.directory there) ∧
      SameFiles extension inner there := by
  have hentries := isTree_of_find htree hfound
  have hname := hentries.isName hmem
  obtain ⟨found, hentry, hsubset⟩ := (mem_of_list_eq_ok hfound hlist).1 _ hmem
  obtain ⟨there, hthere, rfl⟩ := exists_find_of_listEntry hentry
  have hlists := Directory.lists_trailsBelow extension hentries
  have hlists' := Directory.lists_trailsBelow extension (isTree_of_find htree hthere)
  refine ⟨there, hthere, fun rest hends => ⟨?_, ?_⟩⟩
  · rintro ⟨bytes, hfile⟩
    have htrail : name :: rest ∈ trailsBelow extension (sorted entries) :=
      (hlists.mem_iff _).mpr ⟨⟨bytes, .inside hmem hfile⟩,
        (Directory.endsIn_cons hfile.ne_nil).mpr hends⟩
    have hnames := List.forall_mem_cons.mpr ⟨hname, hfile.isName (hentries.of_mem hmem)⟩
    have hrest := mem_trailsBelow_of_list htree hfound hlist hthere hfile.ne_nil hnames
      (List.mem_map_of_mem htrail)
    exact ((hlists'.mem_iff rest).mp hrest).1
  · rintro ⟨bytes, hfile⟩
    have hnames := List.forall_mem_cons.mpr ⟨hname, hfile.isName (isTree_of_find htree hthere)⟩
    have hpaths := hsubset (List.mem_map_of_mem ((hlists'.mem_iff rest).mpr ⟨⟨bytes, hfile⟩, hends⟩))
    obtain ⟨trail, htrail, heq⟩ := List.mem_map.mp hpaths
    obtain ⟨⟨bytes', hfile'⟩, -⟩ := (hlists.mem_iff trail).mp htrail
    -- the path tells the trail, which therefore goes through the directory under the name
    have hsame : trail = name :: rest := Path.trailPath_injective (ne_nil_of_find hfound)
      hfile'.ne_nil (List.cons_ne_nil _ _) (hfile'.isName hentries) hnames heq
    rw [hsame] at hfile'
    cases hfile' with
    | file h => exact absurd rfl hfile.ne_nil
    | inside h hinner =>
      cases hentries.eq_of_mem hmem h
      exact ⟨bytes', hinner⟩

/--
A directory is listed completely, exactly and in order, the paths of its files being those of their
trails and no path coming twice, if and only if the path of each directory in it leads to one with the
same files. From a plain path this is so, and each path that is listed names its file. The order in
which the entries of the directories come changes nothing in any case.
-/
theorem list_eq_iff_of_find (htree : disk.root.IsTree)
    (hfound : disk.find path = .ok (.directory entries)) (extension : Text) :
    ∃ trails, entries.Lists extension trails ∧ (trails.map (trailPath path)).Nodup ∧
      (disk.list path extension = .ok (trails.map (trailPath path)) ↔
        ∀ name inner, (name, Entry.directory inner) ∈ entries → ∃ there : Directory,
          disk.find (Path.join path name) = .ok (.directory there) ∧
            SameFiles extension inner there) ∧
      (disk.IsPlain path →
        disk.list path extension = .ok (trails.map (trailPath path)) ∧
          ∀ trail bytes, entries.HasFile trail bytes →
            disk.find (trailPath path trail) = .ok (.file bytes)) ∧
      ∀ root, SameTree disk.root root →
        Disk.list ⟨root, disk.working⟩ path extension = disk.list path extension := by
  have hentries := isTree_of_find htree hfound
  have hlists := Directory.lists_trailsBelow extension hentries
  -- the trails in order of names, and then the four statements about them
  refine ⟨trailsBelow extension (sorted entries), hlists,
    hlists.nodup_paths hentries (ne_nil_of_find hfound), ⟨?_, ?_⟩, ?_, ?_⟩
  · intro hlist name inner hmem
    exact sameFiles_of_list_eq htree hfound hlist hmem
  · exact list_eq_ok htree hfound
  · intro hplain
    have hplace := Holds.of_isPlain hplain hfound
    exact ⟨hplace.list_eq_ok htree extension, fun trail bytes hfile =>
      hplace.find_of_hasFile hentries hfile⟩
  · intro root hsame
    exact list_eq_of_sameTree htree hsame path extension

/-- A directory with a directory behind a file that comes before it. -/
def project : Directory := [("sub", .directory [("c.gd", .file [])]), ("b.gd", .file [])]

/-- A directory that holds it, a link into it, and another directory of the same name. -/
def crossing : Directory :=
  [("d", .directory project), ("l", .link "d/sub"), ("sub", .directory [("evil.gd", .file [])])]

/-- A disk with these, on which they are the working directory. -/
def crossed : Disk := ⟨[("work", .directory crossing)], ["work"]⟩

theorem isTree_crossed : crossed.root.IsTree := by
  have hleaf : ∀ name, Path.IsName name → Directory.IsTree [(name, .file [])] := fun name hname =>
    .directory (List.nodup_singleton _) (by simpa using hname) (by simpa using Entry.IsTree.file [])
  have hproject : Entry.IsTree (.directory project) := by
    refine .directory (by decide) (by decide) ?_
    exact List.forall_mem_cons.mpr ⟨hleaf _ (by decide), List.forall_mem_singleton.mpr (.file _)⟩
  have hcrossing : Entry.IsTree (.directory crossing) := by
    refine .directory (by decide) (by decide) ?_
    exact List.forall_mem_cons.mpr ⟨hproject, List.forall_mem_cons.mpr
      ⟨.link _, List.forall_mem_singleton.mpr (hleaf _ (by decide))⟩⟩
  exact .directory (by decide) (by decide) (List.forall_mem_singleton.mpr hcrossing)

/--
By way of the link and back up, the files of the other directory are listed. From the directory itself,
given by an absolute path that goes up behind a directory, its own are, and so are those of the
directory that the link alone leads to.
-/
theorem list_eq_iff_of_find_crossed :
    crossed.root.IsTree ∧ crossed.find "l/.." = .ok (.directory project) ∧
      crossed.find "/work/d/sub/.." = .ok (.directory project) ∧
      (∃ trails, project.Lists ".gd" trails ∧
        crossed.list "l/.." ".gd" ≠ .ok (trails.map (trailPath "l/.."))) ∧
      (∃ trails, project.Lists ".gd" trails ∧
        crossed.list "/work/d/sub/.." ".gd" = .ok (trails.map (trailPath "/work/d/sub/.."))) ∧
      (∃ trails, Directory.Lists [("c.gd", .file [])] ".gd" trails ∧
        crossed.list "l" ".gd" = .ok (trails.map (trailPath "l"))) ∧
      Disk.list ⟨[("work", .directory crossing.reverse)], ["work"]⟩ "l/.." ".gd" =
        crossed.list "l/.." ".gd" := by
  have hlinked : crossed.find "l/.." = .ok (.directory project) := rfl
  have habsolute : crossed.find "/work/d/sub/.." = .ok (.directory project) := rfl
  have hplain : crossed.IsPlain "/work/d/sub/.." :=
    isPlain_of_arrived (show _ = Walk.arrived (.directory project) from rfl)
  have hturned : SameTree crossed.root [("work", .directory crossing.reverse)] :=
    @SameTree.inside [] _ _ _ _ (.perm (List.reverse_perm crossing).symm)
  obtain ⟨trails, hlists, -, hiff, -, horder⟩ := list_eq_iff_of_find isTree_crossed hlinked ".gd"
  obtain ⟨trails', hlists', -, -, hright, -⟩ := list_eq_iff_of_find isTree_crossed habsolute ".gd"
  have hlink : crossed.find "l" = .ok (.directory [("c.gd", .file [])]) := rfl
  obtain ⟨trails'', hlists'', -, -, hright', -⟩ := list_eq_iff_of_find isTree_crossed hlink ".gd"
  have hplain' : crossed.IsPlain "l" := isPlain_of_above_notMem crossed (by decide)
  refine ⟨isTree_crossed, hlinked, habsolute, ⟨trails, hlists, fun hlist => ?_⟩,
    ⟨trails', hlists', (hright hplain).1⟩, ⟨trails'', hlists'', (hright' hplain').1⟩,
    horder _ hturned⟩
  -- the other directory holds no file of this name
  obtain ⟨there, hthere, hsame⟩ := hiff.mp hlist "sub" [("c.gd", .file [])] (by simp [project])
  have hother : crossed.find (Path.join "l/.." "sub") = .ok (.directory [("evil.gd", .file [])]) := rfl
  rw [hother] at hthere
  cases hthere
  obtain ⟨bytes, hfile⟩ := (hsame ["c.gd"] ⟨"c.gd", rfl, by decide⟩).mp ⟨[], .file (by simp)⟩
  cases hfile with
  | file hmem =>
    have hname : ("c.gd" : Text) = "evil.gd" := congrArg Prod.fst (List.mem_singleton.mp hmem)
    exact absurd hname (by decide)
  | inside hmem hfile => exact hfile.ne_nil rfl

example : crossed.list "l/.." ".gd" = .ok ["b.gd", "sub/evil.gd"] := by
  cbv

example : crossed.list "/work/d/sub/.." ".gd" = .ok ["/work/d/b.gd", "/work/d/sub/c.gd"] := by
  cbv

end Disk

end GDScript
