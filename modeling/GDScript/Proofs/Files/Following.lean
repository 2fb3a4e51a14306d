import GDScript.Files.Disk
import GDScript.Proofs.Files.Tree

/-!
# Following paths on a disk

What the first part of a path does does not depend on the parts behind it (`Disk.steps`). So a path
that leads to a directory may be continued there (`Disk.Leads.append`), and parts that name the same
directory may be left out or put in (`Disk.Leads.of_filter_eq`). A tree with its entries in another
order is followed alike (`Disk.follow_alike`), and what is found in a tree is a tree
(`Disk.isTree_of_find`).
-/

namespace GDScript.Disk

open GDScript.Directory (Alike SameTree)
open GDScript.Path (IsName)

variable {root here d entries : Directory} {above : List Directory} {entry : Entry}
  {path part name : Text} {parts rest trail : List Text} {bytes : List UInt8} {links : Nat}

/-! ### Following the parts of a path -/

theorem walk_idle (root here : Directory) (above : List Directory) (rest : List Text)
    (hidle : (part.isEmpty || part == Path.here) = true) :
    walk root here above (part :: rest) = walk root here above rest := by
  conv_lhs => unfold walk
  rw [if_pos hidle]

theorem walk_named (root here : Directory) (above : List Directory) (rest : List Text)
    (hidle : (part.isEmpty || part == Path.here) = false) (habove : (part == Path.above) = false) :
    walk root here above (part :: rest) = match here.lookup part with
      | none => .blocked .missing
      | some (.directory entries) => walk root entries (here :: above) rest
      | some (.file bytes) =>
        if rest.isEmpty then .arrived (.file bytes) else .blocked .notDirectory
      | some (.link target) =>
        if Path.isAbsolute target then .linked root [] (Path.parts target ++ rest)
        else .linked here above (Path.parts target ++ rest) := by
  conv_lhs => unfold walk
  rw [hidle, habove]
  rfl

/-- A name of a tree that stands for a directory leads there. -/
theorem walk_of_lookup (hname : IsName name) (h : here.lookup name = some (.directory d))
    (root : Directory) (above : List Directory) (rest : List Text) :
    walk root here above (name :: rest) = walk root d (here :: above) rest := by
  rw [walk_named root here above rest hname.isEmpty_or_here hname.beq_above, h]

/-- What the first part of a path does, whatever stands behind it. -/
inductive Steps (root here : Directory) (above : List Directory) (part : Text) : Prop where
  /-- It leads to a directory. -/
  | moves (there : Directory) (upper : List Directory)
      (h : ∀ rest, walk root here above (part :: rest) = walk root there upper rest) :
      Steps root here above part
  /-- It leads nowhere. -/
  | blocked (obstacle : Obstacle)
      (h : ∀ rest, walk root here above (part :: rest) = .blocked obstacle) :
      Steps root here above part
  /-- It leads to a file, behind which nothing may stand. -/
  | file (bytes : List UInt8)
      (h : ∀ rest, walk root here above (part :: rest) =
        if rest.isEmpty then .arrived (.file bytes) else .blocked .notDirectory) :
      Steps root here above part
  /-- It is a link to some parts, which are followed from a directory. -/
  | link (there : Directory) (upper : List Directory) (target : List Text)
      (h : ∀ rest, walk root here above (part :: rest) = .linked there upper (target ++ rest)) :
      Steps root here above part

theorem steps (root here : Directory) (above : List Directory) (part : Text) :
    Steps root here above part := by
  cases hidle : part.isEmpty || part == Path.here with
  | true => exact .moves here above fun rest => walk_idle root here above rest hidle
  | false =>
    cases habove : part == Path.above with
    | true =>
      have hpart : part = Path.above := by simpa using habove
      subst hpart
      cases above with
      | nil => exact .moves here [] fun rest => rfl
      | cons outer more => exact .moves outer more fun rest => rfl
    | false =>
      have hnamed := fun rest => walk_named root here above rest hidle habove
      cases hentry : here.lookup part with
      | none => exact .blocked .missing fun rest => by rw [hnamed, hentry]
      | some entry =>
        cases entry with
        | directory entries =>
          exact .moves entries (here :: above) fun rest => by rw [hnamed, hentry]
        | file bytes => exact .file bytes fun rest => by rw [hnamed, hentry]
        | link target =>
          -- an absolute link begins at the root, any other one where it stands
          cases habsolute : Path.isAbsolute target with
          | true =>
            exact .link root [] (Path.parts target) fun rest => by
              rw [hnamed, hentry]
              exact if_pos habsolute
          | false =>
            exact .link here above (Path.parts target) fun rest => by
              rw [hnamed, hentry]
              exact if_neg (ne_true_of_eq_false habsolute)

/-- The parts that a walk to a directory begins with lead to a directory, and go on from there. -/
theorem walk_append_of_arrived (h : walk root here above (parts ++ rest) = .arrived (.directory d)) :
    ∃ there stack, ∀ rest, walk root here above (parts ++ rest) = walk root there stack rest := by
  induction parts generalizing here above with
  | nil => exact ⟨here, above, fun rest => rfl⟩
  | cons part parts ih =>
    cases steps root here above part with
    | moves there upper hstep =>
      rw [List.cons_append, hstep] at h
      obtain ⟨last, stack, hrest⟩ := ih h
      exact ⟨last, stack, fun rest => by rw [List.cons_append, hstep, hrest]⟩
    | blocked obstacle hstep => rw [List.cons_append, hstep] at h; cases h
    | file bytes hstep =>
      rw [List.cons_append, hstep] at h
      split at h <;> cases h
    | link there upper target hstep => rw [List.cons_append, hstep] at h; cases h

/-- A walk that comes upon a link takes what is left of the path along. -/
theorem walk_append_of_linked {stack : List Directory} {left : List Text}
    (h : walk root here above parts = .linked d stack left) (rest : List Text) :
    walk root here above (parts ++ rest) = .linked d stack (left ++ rest) := by
  induction parts generalizing here above with
  | nil => cases h
  | cons part parts ih =>
    rw [List.cons_append]
    -- the walk stopped at a link, so what is appended stays among the names left over
    cases steps root here above part with
    | moves there upper hstep =>
      rw [hstep] at h ⊢
      exact ih h
    | blocked obstacle hstep => rw [hstep] at h; cases h
    | file bytes hstep =>
      rw [hstep] at h
      split at h <;> cases h
    | link there upper target hstep =>
      rw [hstep] at h ⊢
      cases h
      rw [List.append_assoc]

/-- From a directory the parts of a path lead to an entry, by way of at most so many links. -/
inductive Leads (root : Directory) :
    Nat → Directory → List Directory → List Text → Entry → Prop where
  | arrived {links : Nat} {here : Directory} {above : List Directory} {parts : List Text}
      {entry : Entry} (h : walk root here above parts = .arrived entry) :
      Leads root links here above parts entry
  | linked {links : Nat} {here there : Directory} {above stack : List Directory}
      {parts left : List Text} {entry : Entry}
      (h : walk root here above parts = .linked there stack left)
      (hleft : Leads root links there stack left entry) :
      Leads root (links + 1) here above parts entry

theorem Leads.follow_eq (h : Leads root links here above parts entry) :
    follow root links here above parts = .ok entry := by
  induction h with
  | @arrived links here above parts entry h => cases links <;> rw [follow, h]
  | linked h hleft ih =>
    rw [follow, h]
    exact ih

theorem leads_of_follow_eq (h : follow root links here above parts = .ok entry) :
    Leads root links here above parts entry := by
  -- on the links that may still be followed, as `follow` counts them
  induction links generalizing here above parts with
  | zero =>
    rw [follow] at h
    split at h
    · next harrived =>
      cases h
      exact .arrived harrived
    · cases h
    · cases h
  | succ links ih =>
    rw [follow] at h
    split at h
    · next harrived =>
      cases h
      exact .arrived harrived
    · cases h
    · next hlinked => exact .linked hlinked (ih h)

/-- Where the parts are walked alike, they lead alike. -/
theorem Leads.of_walk_eq {there : Directory} {upper : List Directory} {parts' : List Text}
    (h : Leads root links here above parts entry)
    (hwalk : walk root there upper parts' = walk root here above parts) :
    Leads root links there upper parts' entry := by
  cases h with
  | arrived h => exact .arrived (hwalk.trans h)
  | linked h hleft => exact .linked (hwalk.trans h) hleft

/-- A path that leads to a directory may be continued there. -/
theorem Leads.append (h : Leads root links here above parts (.directory d)) :
    ∃ fewer stack, ∀ rest,
      follow root links here above (parts ++ rest) = follow root fewer d stack rest := by
  generalize htarget : Entry.directory d = entry at h
  induction h with
  | @arrived links here above parts entry h =>
    subst htarget
    rw [← List.append_nil parts] at h
    obtain ⟨there, stack, hwalk⟩ := walk_append_of_arrived h
    rw [hwalk] at h
    cases h
    refine ⟨links, stack, fun rest => ?_⟩
    cases links <;> rw [follow, follow, hwalk]
  | linked h hleft ih =>
    -- what stands behind the path stands behind what the link leaves of it, too
    obtain ⟨fewer, stack, hfollow⟩ := ih htarget
    refine ⟨fewer, stack, fun rest => ?_⟩
    rw [follow, walk_append_of_linked h]
    exact hfollow rest

/-- A trail of a tree is followed to its file. -/
theorem walk_of_hasFile (h : entries.HasFile trail bytes) (htree : entries.IsTree)
    (root : Directory) (above : List Directory) :
    walk root entries above trail = .arrived (.file bytes) := by
  induction h generalizing above with
  | @file entries name bytes h =>
    have hname := htree.isName h
    rw [walk_named root entries above [] hname.isEmpty_or_here hname.beq_above,
      Directory.lookup_of_mem htree.nodup h]
    rfl
  | @inside entries inner name trail bytes h hfile ih =>
    rw [walk_of_lookup (htree.isName h) (Directory.lookup_of_mem htree.nodup h)]
    exact ih (htree.of_mem h) (entries :: above)

/-! ### Idle parts -/

/-- A part that is more than the directory itself. -/
def isBusy (part : Text) : Bool := !(part.isEmpty || part == Path.here)

theorem isBusy_eq_true (h : isBusy part = true) : (part.isEmpty || part == Path.here) = false := by
  rwa [isBusy, Bool.not_eq_true'] at h

theorem isBusy_eq_false (h : isBusy part = false) : (part.isEmpty || part == Path.here) = true := by
  rwa [isBusy, Bool.not_eq_false'] at h

/-- What matters of a walk on the way to a directory: the idle parts that are left do not. -/
def Walk.outline : Walk → Walk
  | .arrived (.directory d) => .arrived (.directory d)
  | .linked here above left => .linked here above (left.filter isBusy)
  | _ => .blocked .missing

theorem Walk.of_outline_arrived {w : Walk} (h : w.outline = .arrived (.directory d)) :
    w = .arrived (.directory d) := by
  cases w with
  | arrived entry =>
    cases entry with
    | directory entries => exact h
    | file bytes => cases h
    | link target => cases h
  | blocked obstacle => cases h
  | linked here above left => cases h

theorem Walk.of_outline_linked {w : Walk} {stack : List Directory} {left : List Text}
    (h : w.outline = .linked d stack left) :
    ∃ left', w = .linked d stack left' ∧ left'.filter isBusy = left := by
  cases w with
  | arrived entry =>
    cases entry with
    | directory entries => cases h
    | file bytes => cases h
    | link target => cases h
  | blocked obstacle => cases h
  | linked here above left' =>
    cases h
    exact ⟨left', rfl, rfl⟩

theorem outline_walk_filter (root here : Directory) (above : List Directory) (parts : List Text) :
    (walk root here above (parts.filter isBusy)).outline =
      (walk root here above parts).outline := by
  induction parts generalizing here above with
  | nil => rfl
  | cons part parts ih =>
    cases hbusy : isBusy part with
    | false =>
      rw [List.filter_cons_of_neg (by simp [hbusy]),
        walk_idle root here above parts (isBusy_eq_false hbusy)]
      exact ih here above
    | true =>
      rw [List.filter_cons_of_pos hbusy]
      cases steps root here above part with
      | moves there upper hstep => rw [hstep, hstep, ih there upper]
      | blocked obstacle hstep => rw [hstep, hstep]
      -- behind a file nothing is found, and without anything behind it no directory
      | file bytes hstep =>
        have hlost : ∀ rest, (walk root here above (part :: rest)).outline = .blocked .missing := by
          intro rest
          rw [hstep]
          split <;> rfl
        rw [hlost, hlost]
      | link there upper target hstep =>
        rw [hstep, hstep]
        simp [Walk.outline]

/-- A path to a directory may be given with idle parts or without them. -/
theorem Leads.of_filter_eq {parts' : List Text}
    (h : Leads root links here above parts (.directory d))
    (heq : parts.filter isBusy = parts'.filter isBusy) :
    Leads root links here above parts' (.directory d) := by
  generalize htarget : Entry.directory d = entry at h ⊢
  induction h generalizing parts' with
  | @arrived links here above parts entry h =>
    subst htarget
    have hwalk := outline_walk_filter root here above parts'
    rw [← heq, outline_walk_filter, h] at hwalk
    exact .arrived (Walk.of_outline_arrived hwalk.symm)
  | @linked links here there above stack parts left entry h hleft ih =>
    -- the names left over behind a link differ by idle ones again
    have hwalk := outline_walk_filter root here above parts'
    rw [← heq, outline_walk_filter, h] at hwalk
    obtain ⟨left', hlinked, hfilter⟩ := Walk.of_outline_linked hwalk.symm
    exact .linked hlinked (ih hfilter.symm htarget)

/-! ### Trees that are alike -/

/-- Walks that lead to the like. -/
inductive Walk.Alike : Walk → Walk → Prop where
  | arrived {entry entry' : Entry} (h : entry.Alike entry') : Alike (.arrived entry) (.arrived entry')
  | blocked (obstacle : Obstacle) : Alike (.blocked obstacle) (.blocked obstacle)
  | linked {here here' : Directory} {above above' : List Directory} (hhere : here.Alike here')
      (habove : List.Forall₂ Directory.Alike above above') (parts : List Text) :
      Alike (.linked here above parts) (.linked here' above' parts)

/-- What may be found: the same obstacle, or entries that are alike. -/
inductive FindsAlike : Except Obstacle Entry → Except Obstacle Entry → Prop where
  | error (obstacle : Obstacle) : FindsAlike (.error obstacle) (.error obstacle)
  | ok {entry entry' : Entry} (h : entry.Alike entry') : FindsAlike (.ok entry) (.ok entry')

variable {root' here' : Directory} {above' : List Directory}

theorem walk_alike (hroot : root.Alike root') (hhere : here.Alike here')
    (habove : List.Forall₂ Alike above above') (parts : List Text) :
    (walk root here above parts).Alike (walk root' here' above' parts) := by
  induction parts generalizing here here' above above' with
  | nil => exact .arrived (.directory hhere)
  | cons part rest ih =>
    cases hidle : part.isEmpty || part == Path.here with
    | true =>
      rw [walk_idle _ _ _ _ hidle, walk_idle _ _ _ _ hidle]
      exact ih hhere habove
    | false =>
      cases hup : part == Path.above with
      | true =>
        have hpart : part = Path.above := by simpa using hup
        subst hpart
        cases habove with
        | nil => exact ih hhere .nil
        | cons houter hmore => exact ih houter hmore
      | false =>
        rw [walk_named _ _ _ _ hidle hup, walk_named _ _ _ _ hidle hup]
        -- a name leads to entries alike, since it stands in a directory once
        have hfound := hhere.same.lookup hhere.isTree part
        generalize here.lookup part = found, here'.lookup part = found' at hfound ⊢
        cases hfound with
        | none => exact .blocked .missing
        | some hentry =>
          cases hentry with
          | file bytes =>
            dsimp only
            split
            · exact .arrived (.file bytes)
            · exact .blocked .notDirectory
          | directory hentries => exact ih hentries (.cons hhere habove)
          | link target =>
            dsimp only
            split
            · exact .linked hroot .nil _
            · exact .linked hhere habove _

theorem follow_alike (hroot : root.Alike root') (hhere : here.Alike here')
    (habove : List.Forall₂ Alike above above') (links : Nat) (parts : List Text) :
    FindsAlike (follow root links here above parts) (follow root' links here' above' parts) := by
  -- on the links left: one round of `walk` goes alike, and so do the rounds behind it
  induction links generalizing here here' above above' parts with
  | zero =>
    unfold follow
    have hwalk := walk_alike hroot hhere habove parts
    generalize walk root here above parts = w, walk root' here' above' parts = w' at hwalk ⊢
    cases hwalk with
    | arrived h => exact .ok h
    | blocked obstacle => exact .error obstacle
    | linked hthere hupper left => exact .error .tooManyLinks
  | succ links ih =>
    unfold follow
    have hwalk := walk_alike hroot hhere habove parts
    generalize walk root here above parts = w, walk root' here' above' parts = w' at hwalk ⊢
    cases hwalk with
    | arrived h => exact .ok h
    | blocked obstacle => exact .error obstacle
    | linked hthere hupper left => exact ih hthere hupper left

/-- The entries of a tree may come in another order: the like is found. -/
theorem find_alike {disk disk' : Disk} (hroot : disk.root.Alike disk'.root)
    (hworking : disk.working = disk'.working) (path : Text) :
    FindsAlike (disk.find path) (disk'.find path) := by
  unfold find origin
  rw [hworking]
  split
  · exact .error .missing
  · exact follow_alike hroot hroot .nil _ _

/-- What is found in a tree is a tree. -/
theorem isTree_of_find {disk : Disk} (htree : disk.root.IsTree)
    (h : disk.find path = .ok (.directory entries)) : entries.IsTree := by
  have halike : FindsAlike (disk.find path) (disk.find path) :=
    find_alike ⟨htree, .refl _⟩ rfl path
  rw [h] at halike
  cases halike with
  | ok hentry =>
    cases hentry with
    | directory hentries => exact hentries.isTree

end GDScript.Disk
