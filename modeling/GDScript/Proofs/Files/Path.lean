import GDScript.Files.Path
import Mathlib.Data.List.Basic

/-!
# Names in paths

A path is split at its slashes, and splitting undoes joining (`Path.parts_ofParts`). Resolving `.`
and `..` leaves names below some `..`, or names alone if the path is absolute (`Path.IsResolved`), and
what has been resolved stays as it is, so that a name joined to a path stands behind what the path
comes down to (`Path.join_eq`). A trail of names that is joined to a path name after name stands there
as a whole (`Path.trailPath_eq`), and different trails give different paths
(`Path.trailPath_injective`).
-/

namespace GDScript.Path

variable {path name part : Text} {names trail : List Text}

/-! ### Parts -/

/-- Parts are what the slashes separate. -/
theorem parts_eq_splitOn (path : Text) : parts path = path.splitOn CodeUnit.slash := by
  induction path with
  | nil => rfl
  | cons u path ih =>
    rw [parts, List.splitOn_cons_eq_if_modifyHead, ih]
    split
    · rfl
    · cases hsplit : path.splitOn CodeUnit.slash with
      | nil => exact absurd hsplit (List.splitOn_ne_nil _ path)
      | cons part more => rfl

/-- A slash separates the parts in front of it from those behind it. -/
theorem parts_append_slash (path rest : Text) :
    parts (path ++ CodeUnit.slash :: rest) = parts path ++ parts rest := by
  simp only [parts_eq_splitOn, List.splitOn_append_cons_self]

/-- A name is the one part of itself. -/
theorem parts_of_slash_notMem (h : CodeUnit.slash ∉ name) : parts name = [name] := by
  rw [parts_eq_splitOn, List.splitOn_eq_singleton h]

/-- Names that are joined are found again if they hold no slashes. -/
theorem parts_ofParts (hne : names ≠ []) (h : ∀ n ∈ names, CodeUnit.slash ∉ n) :
    parts (ofParts names) = names := by
  rw [parts_eq_splitOn]
  exact List.splitOn_intercalate CodeUnit.slash h hne

/-- No part holds a slash. -/
theorem slash_notMem_of_mem_parts (h : part ∈ parts path) : CodeUnit.slash ∉ part := by
  rw [parts_eq_splitOn] at h
  induction path generalizing part with
  | nil =>
    rw [List.mem_singleton.mp h]
    exact List.not_mem_nil
  | cons u path ih =>
    rw [List.splitOn_cons_eq_if_modifyHead] at h
    -- a slash starts a part, any other unit belongs to the first one
    split at h
    · rcases List.mem_cons.mp h with rfl | h
      · exact List.not_mem_nil
      · exact ih h
    · next hu =>
      obtain ⟨first, more, hsplit⟩ :=
        List.exists_cons_of_ne_nil (List.splitOn_ne_nil CodeUnit.slash path)
      rw [hsplit] at h ih
      rcases List.mem_cons.mp h with rfl | h
      · have hne : CodeUnit.slash ≠ u := fun heq => hu (by rw [heq]; exact beq_self_eq_true u)
        exact List.not_mem_cons_of_ne_of_not_mem hne (ih List.mem_cons_self)
      · exact ih (List.mem_cons_of_mem first h)

/-- One part is joined to itself. -/
theorem ofParts_singleton (name : Text) : ofParts [name] = name := by
  simp [ofParts, Text.join, List.intercalate]

/-- A part is joined to the others by a slash. -/
theorem ofParts_cons (name : Text) (hnames : names ≠ []) :
    ofParts (name :: names) = name ++ CodeUnit.slash :: ofParts names := by
  obtain ⟨next, names, rfl⟩ := List.exists_cons_of_ne_nil hnames
  simp [ofParts, Text.join, List.intercalate]

/-! ### Names -/

/-- A name that may stand in a directory; neither that directory nor the one above is called so. -/
structure IsName (name : Text) : Prop where
  ne_nil : name ≠ []
  ne_here : name ≠ here
  ne_above : name ≠ above
  slash_notMem : CodeUnit.slash ∉ name

instance (name : Text) : Decidable (IsName name) :=
  decidable_of_iff (name ≠ [] ∧ name ≠ here ∧ name ≠ above ∧ CodeUnit.slash ∉ name)
    ⟨fun ⟨hnil, hhere, habove, hslash⟩ => ⟨hnil, hhere, habove, hslash⟩,
      fun ⟨hnil, hhere, habove, hslash⟩ => ⟨hnil, hhere, habove, hslash⟩⟩

namespace IsName

/-- A name is neither empty nor the one for the directory itself. -/
theorem isEmpty_or_here (h : IsName name) : (name.isEmpty || name == here) = false := by
  simp [h.ne_nil, h.ne_here]

/-- A name is not the one for the directory above. -/
theorem beq_above (h : IsName name) : (name == above) = false := beq_false_of_ne h.ne_above

/-- A part that resolving keeps is a name. -/
theorem of_part (hempty : ¬ (part.isEmpty || part == here) = true)
    (habove : ¬ (part == above) = true) (hslash : CodeUnit.slash ∉ part) : IsName part where
  ne_nil hnil := hempty (by rw [hnil]; rfl)
  ne_here hhere := hempty (by rw [hhere]; rfl)
  ne_above h := habove (by rw [h]; exact beq_self_eq_true above)
  slash_notMem := hslash

end IsName

/-- A name is entered. -/
theorem enter_of_isName (absolute : Bool) (names : List Text) (h : IsName name) :
    enter absolute names name = name :: names := by
  unfold enter
  rw [h.isEmpty_or_here, h.beq_above]
  rfl

/-- Names are entered one by one, the last one innermost. -/
theorem foldl_enter_of_isName (absolute : Bool) (names : List Text) (h : ∀ n ∈ trail, IsName n) :
    trail.foldl (enter absolute) names = trail.reverse ++ names := by
  induction trail generalizing names with
  | nil => rfl
  | cons name trail ih =>
    obtain ⟨hname, htrail⟩ := List.forall_mem_cons.mp h
    rw [List.foldl_cons, enter_of_isName absolute names hname, ih (name :: names) htrail,
      List.reverse_cons, List.append_assoc, List.singleton_append]

/-! ### Resolved names -/

variable {absolute : Bool}

/--
Names, innermost first, that lead down from so many directories above. An absolute path leads up from
nowhere: above the root is the root.
-/
def IsResolved (absolute : Bool) (names : List Text) : Prop :=
  ∃ inner steps, names = inner ++ List.replicate steps above ∧ (absolute = true → steps = 0) ∧
    ∀ n ∈ inner, IsName n

theorem isResolved_nil (absolute : Bool) : IsResolved absolute [] :=
  ⟨[], 0, rfl, fun _ => rfl, fun _ h => absurd h List.not_mem_nil⟩

/-- Names may be entered from wherever a path has led. -/
theorem IsResolved.append (hnames : IsResolved absolute names) (h : ∀ n ∈ trail, IsName n) :
    IsResolved absolute (trail ++ names) := by
  obtain ⟨inner, steps, rfl, hsteps, hinner⟩ := hnames
  refine ⟨trail ++ inner, steps, (List.append_assoc _ _ _).symm, hsteps, fun n hn => ?_⟩
  rcases List.mem_append.mp hn with hn | hn
  · exact h n hn
  · exact hinner n hn

/-- Going up takes the innermost name away; where there is none, it is one more step up or idle. -/
theorem IsResolved.enter_above (hnames : IsResolved absolute names) :
    IsResolved absolute (enter absolute names above) := by
  obtain ⟨inner, steps, rfl, hsteps, hinner⟩ := hnames
  cases inner with
  | nil =>
    cases absolute with
    | true =>
      rw [hsteps rfl]
      exact isResolved_nil true
    | false =>
      have hall : ∀ k, IsResolved false (List.replicate k above) := fun k =>
        ⟨[], k, rfl, nofun, fun _ h => absurd h List.not_mem_nil⟩
      -- above a relative path it goes on up
      cases steps with
      | zero => exact hall 1
      | succ steps => exact hall (steps + 2)
  | cons name inner =>
    obtain ⟨hname, hinner⟩ := List.forall_mem_cons.mp hinner
    show IsResolved absolute
      (if (name == above) = true then _ else inner ++ List.replicate steps above)
    rw [hname.beq_above, if_neg Bool.false_ne_true]
    exact ⟨inner, steps, rfl, hsteps, hinner⟩

/-- Whatever part is entered, the names stay resolved. -/
theorem IsResolved.enter (hnames : IsResolved absolute names) (hslash : CodeUnit.slash ∉ part) :
    IsResolved absolute (enter absolute names part) := by
  by_cases habove : part = above
  · rw [habove]
    exact hnames.enter_above
  · unfold Path.enter
    split
    · exact hnames
    · next hempty =>
      have hbeq : ¬ (part == above) = true := fun h => habove (beq_iff_eq.mp h)
      rw [if_neg hbeq]
      have hone : ∀ n ∈ [part], IsName n := by simpa using IsName.of_part hempty hbeq hslash
      exact hnames.append hone

/-- So they do for all parts of a path. -/
theorem IsResolved.foldl_enter (hnames : IsResolved absolute names)
    (h : ∀ p ∈ trail, CodeUnit.slash ∉ p) :
    IsResolved absolute (trail.foldl (Path.enter absolute) names) := by
  induction trail generalizing names with
  | nil => exact hnames
  | cons part trail ih =>
    obtain ⟨hpart, htrail⟩ := List.forall_mem_cons.mp h
    exact ih (hnames.enter hpart) htrail

/-- What is left is not empty and holds no slash. -/
theorem IsResolved.ne_nil_and_slash_notMem (hnames : IsResolved absolute names) {n : Text}
    (hn : n ∈ names) : n ≠ [] ∧ CodeUnit.slash ∉ n := by
  obtain ⟨inner, steps, rfl, -, hinner⟩ := hnames
  rcases List.mem_append.mp hn with hn | hn
  · exact ⟨(hinner n hn).ne_nil, (hinner n hn).slash_notMem⟩
  · rw [List.eq_of_mem_replicate hn]
    decide

/-- Steps up from nowhere stay. -/
theorem foldl_enter_replicate (steps : Nat) (h : absolute = true → steps = 0) :
    (List.replicate steps above).foldl (enter absolute) [] = List.replicate steps above := by
  induction steps with
  | zero => rfl
  | succ steps ih =>
    have hrelative : absolute = false := Bool.eq_false_iff.mpr fun hone => by simpa using h hone
    subst hrelative
    have hstep : enter false (List.replicate steps above) above
        = List.replicate (steps + 1) above := by
      cases steps <;> rfl
    rw [List.replicate_succ', List.foldl_append, ih nofun, List.foldl_cons, List.foldl_nil, hstep,
      List.replicate_succ']

/-- What has been resolved is resolved to itself. -/
theorem IsResolved.foldl_reverse (hnames : IsResolved absolute names) :
    names.reverse.foldl (Path.enter absolute) [] = names := by
  obtain ⟨inner, steps, rfl, hsteps, hinner⟩ := hnames
  rw [List.reverse_append, List.reverse_replicate, List.foldl_append,
    foldl_enter_replicate steps hsteps,
    foldl_enter_of_isName _ _ fun n hn => hinner n (List.mem_reverse.mp hn), List.reverse_reverse]

/-! ### What a path comes down to -/

/-- What stands in front of the names of a path: an empty part if it is absolute. -/
def lead (absolute : Bool) : List Text := if absolute then [[]] else []

/-- The names that a path comes down to, outermost first. -/
def resolvedNames (path : Text) : List Text :=
  ((parts path).foldl (enter (isAbsolute path)) []).reverse

/-- The parts that a path comes down to. -/
def resolved (path : Text) : List Text := lead (isAbsolute path) ++ resolvedNames path

/-- The names that a path comes down to are resolved. -/
theorem isResolved_resolvedNames (path : Text) :
    IsResolved (isAbsolute path) (resolvedNames path).reverse := by
  rw [resolvedNames, List.reverse_reverse]
  exact (isResolved_nil _).foldl_enter fun p hp => slash_notMem_of_mem_parts hp

/-- Names that may stand behind a path, which has been resolved. -/
theorem isResolved_trail (path : Text) (h : ∀ n ∈ trail, IsName n) :
    IsResolved (isAbsolute path) (resolvedNames path ++ trail).reverse := by
  rw [List.reverse_append]
  exact (isResolved_resolvedNames path).append fun n hn => h n (List.mem_reverse.mp hn)

/-- An absolute path starts with a slash. -/
theorem ofParts_lead (absolute : Bool) (hne : names ≠ []) :
    ofParts (lead absolute ++ names) =
      (if absolute then [CodeUnit.slash] else []) ++ ofParts names := by
  cases absolute with
  | false => rfl
  | true => exact ofParts_cons [] hne

/-- Joined names begin with the first code unit of the first name. -/
theorem head?_ofParts (name : Text) (more : List Text) (hname : name ≠ []) :
    (ofParts (name :: more)).head? = name.head? := by
  obtain ⟨u, rest, rfl⟩ := List.exists_cons_of_ne_nil hname
  by_cases hmore : more = []
  · rw [hmore, ofParts_singleton]
  · rw [ofParts_cons _ hmore]
    rfl

/-- What has been resolved is absolute if the path was. -/
theorem isAbsolute_ofParts (hne : names ≠ []) (h : IsResolved absolute names.reverse) :
    isAbsolute (ofParts (lead absolute ++ names)) = absolute := by
  rw [ofParts_lead absolute hne]
  -- a relative path starts with a name or a step up, and neither starts with a slash
  cases absolute with
  | true => rfl
  | false =>
    obtain ⟨name, more, rfl⟩ := List.exists_cons_of_ne_nil hne
    obtain ⟨hname, hslash⟩ := h.ne_nil_and_slash_notMem (List.mem_reverse.mpr List.mem_cons_self)
    show ((ofParts (name :: more)).head? == some CodeUnit.slash) = false
    rw [head?_ofParts name more hname]
    apply beq_false_of_ne
    intro heq
    exact hslash (List.mem_of_mem_head? heq)

/-- The parts are found again in the path that they are joined to. -/
theorem parts_ofParts_lead (hne : names ≠ []) (h : IsResolved absolute names.reverse) :
    parts (ofParts (lead absolute ++ names)) = lead absolute ++ names := by
  refine parts_ofParts (List.append_ne_nil_of_right_ne_nil _ hne) fun n hn => ?_
  rcases List.mem_append.mp hn with hn | hn
  · -- the empty part in front holds no slash either
    cases absolute with
    | true => rw [List.mem_singleton.mp hn]; exact List.not_mem_nil
    | false => cases hn
  · exact (h.ne_nil_and_slash_notMem (List.mem_reverse.mpr hn)).2

/-- A path that has been resolved comes down to itself. -/
theorem resolved_ofParts (hne : names ≠ []) (h : IsResolved absolute names.reverse) :
    resolved (ofParts (lead absolute ++ names)) = lead absolute ++ names := by
  have hlead : (lead absolute).foldl (enter absolute) [] = [] := by cases absolute <;> rfl
  have hfold := h.foldl_reverse
  rw [List.reverse_reverse] at hfold
  rw [resolved, resolvedNames, isAbsolute_ofParts hne h, parts_ofParts_lead hne h,
    List.foldl_append, hlead, hfold, List.reverse_reverse]

/-! ### Joining -/

/-- A name that is joined to a path stands behind what the path comes down to. -/
theorem join_eq (hpath : path ≠ []) (hname : IsName name) :
    join path name = ofParts (resolved path ++ [name]) := by
  obtain ⟨u, rest, rfl⟩ := List.exists_cons_of_ne_nil hpath
  have hhead : isAbsolute (u :: rest ++ CodeUnit.slash :: name) = isAbsolute (u :: rest) := rfl
  -- no slash is added behind the name, for it does not end in one
  have hlast : ((u :: rest ++ CodeUnit.slash :: name).getLast? == some CodeUnit.slash) = false := by
    have hv : name.getLast hname.ne_nil ≠ CodeUnit.slash := fun h =>
      hname.slash_notMem (h ▸ List.getLast_mem hname.ne_nil)
    rw [List.append_cons, List.getLast?_append_of_ne_nil _ hname.ne_nil,
      List.getLast?_eq_some_getLast hname.ne_nil]
    simpa using hv
  have hparts : (parts (u :: rest ++ CodeUnit.slash :: name)).foldl
      (enter (isAbsolute (u :: rest))) [] = name :: (resolvedNames (u :: rest)).reverse := by
    rw [parts_append_slash, parts_of_slash_notMem hname.slash_notMem, List.foldl_append,
      resolvedNames, List.reverse_reverse]
    exact enter_of_isName _ _ hname
  rw [join, List.isEmpty_cons, if_neg Bool.false_ne_true, normalize]
  simp only [hhead, hlast, hparts, Bool.false_eq_true, if_false, List.append_nil]
  rw [List.reverse_cons, List.reverse_reverse, resolved, List.append_assoc,
    ofParts_lead _ (List.append_ne_nil_of_right_ne_nil _ (List.cons_ne_nil name []))]

/-! ### Trails -/

/-- The path of what stands at the end of a trail of names from the directory at a path. -/
def trailPath (path : Text) (trail : List Text) : Text := trail.foldl join path

@[simp] theorem trailPath_nil (path : Text) : trailPath path [] = path := rfl

@[simp] theorem trailPath_cons (path name : Text) (trail : List Text) :
    trailPath path (name :: trail) = trailPath (join path name) trail := rfl

/-- The parts of a path with names behind it, once they have been joined, are what they were. -/
theorem ofParts_trail (hne : trail ≠ []) (h : ∀ n ∈ trail, IsName n) :
    isAbsolute (ofParts (resolved path ++ trail)) = isAbsolute path ∧
      parts (ofParts (resolved path ++ trail)) = resolved path ++ trail ∧
      resolved (ofParts (resolved path ++ trail)) = resolved path ++ trail := by
  have hnames := isResolved_trail path h
  have hnonempty : resolvedNames path ++ trail ≠ [] := List.append_ne_nil_of_right_ne_nil _ hne
  rw [resolved, List.append_assoc]
  exact ⟨isAbsolute_ofParts hnonempty hnames, parts_ofParts_lead hnonempty hnames,
    resolved_ofParts hnonempty hnames⟩

/-- The path of what stands behind a name is not empty. -/
theorem ofParts_trail_ne_nil (hne : trail ≠ []) (h : ∀ n ∈ trail, IsName n) :
    ofParts (resolved path ++ trail) ≠ [] := by
  intro hnil
  obtain ⟨name, hname⟩ := List.exists_mem_of_ne_nil trail hne
  have hmem : name ∈ parts (ofParts (resolved path ++ trail)) := by
    rw [(ofParts_trail hne h).2.1]
    exact List.mem_append_right _ hname
  -- the empty path has but an empty part
  rw [hnil] at hmem
  exact (h name hname).ne_nil (List.mem_singleton.mp hmem)

/-- The names of a trail stand behind what the path comes down to. -/
theorem trailPath_eq (hpath : path ≠ []) (hne : trail ≠ []) (h : ∀ n ∈ trail, IsName n) :
    trailPath path trail = ofParts (resolved path ++ trail) := by
  induction trail generalizing path with
  | nil => exact absurd rfl hne
  | cons name trail ih =>
    obtain ⟨hname, htrail⟩ := List.forall_mem_cons.mp h
    have hone : ∀ n ∈ [name], IsName n := by simpa using hname
    rw [trailPath_cons, join_eq hpath hname]
    by_cases hmore : trail = []
    · rw [hmore, trailPath_nil]
    · rw [ih (ofParts_trail_ne_nil (List.cons_ne_nil _ _) hone) hmore htrail,
        (ofParts_trail (List.cons_ne_nil _ _) hone).2.2, List.append_assoc, List.singleton_append]

theorem trailPath_ne_nil (hpath : path ≠ []) (h : ∀ n ∈ trail, IsName n) :
    trailPath path trail ≠ [] := by
  by_cases hne : trail = []
  · rw [hne]
    exact hpath
  · rw [trailPath_eq hpath hne h]
    exact ofParts_trail_ne_nil hne h

theorem isAbsolute_trailPath (hpath : path ≠ []) (h : ∀ n ∈ trail, IsName n) :
    isAbsolute (trailPath path trail) = isAbsolute path := by
  by_cases hne : trail = []
  · rw [hne, trailPath_nil]
  · rw [trailPath_eq hpath hne h]
    exact (ofParts_trail hne h).1

theorem parts_trailPath (hpath : path ≠ []) (hne : trail ≠ []) (h : ∀ n ∈ trail, IsName n) :
    parts (trailPath path trail) = resolved path ++ trail := by
  rw [trailPath_eq hpath hne h]
  exact (ofParts_trail hne h).2.1

/-- Different trails lead to different paths. -/
theorem trailPath_injective {trail' : List Text} (hpath : path ≠ []) (hne : trail ≠ [])
    (hne' : trail' ≠ []) (h : ∀ n ∈ trail, IsName n) (h' : ∀ n ∈ trail', IsName n)
    (heq : trailPath path trail = trailPath path trail') : trail = trail' := by
  have hparts := congrArg parts heq
  rw [parts_trailPath hpath hne h, parts_trailPath hpath hne' h'] at hparts
  exact List.append_cancel_left hparts

end GDScript.Path
