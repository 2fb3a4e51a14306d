import GDScript.Proofs.Pairing.Reading

/-!
# What a text leaves open

Whether a text closes the brackets and the strings that it opens can be told unit by unit, without
reading what stands in it: `Scan` says what is open so far. What stands on a line leaves open what
was open before it, apart from brackets (`Scan.run_plain`, `Scan.run_string`), and so do gaps inside
brackets (`Scan.closes_layout`) and empty lines (`Scan.closes_lineLength`). A return outside of
brackets ends a line as well, and what stands behind it on the same line is not read.
-/

namespace GDScript

/-- What the units so far have left open. -/
inductive Scan where
  /-- Brackets, the innermost one first. -/
  | code (brackets : Text)
  /-- A comment, inside of brackets. -/
  | comment (brackets : Text)
  /-- A string with the quote, inside of brackets. -/
  | string (brackets : Text) (quote : CodeUnit)
  /-- A backslash in such a string. -/
  | escape (brackets : Text) (quote : CodeUnit)
  /-- A line that a return has ended. -/
  | ended
deriving DecidableEq, Repr

namespace Scan

/-- What is open behind a unit that stands neither in a string nor in a comment. -/
def afterCode (bs : Text) (u : CodeUnit) : Scan :=
  if u.isOpener then .code (u :: bs)
  else if u.isCloser then .code bs.tail
  else if u.isQuote then .string bs u
  else if u == CodeUnit.hash then .comment bs
  else if u == CodeUnit.carriageReturn && bs.isEmpty then .ended
  else .code bs

/-- What is open behind one more unit. -/
def after : Scan → CodeUnit → Scan
  | .code bs, u => afterCode bs u
  | .comment bs, u => if u.isLineEnd then afterCode bs u else .comment bs
  | .string bs quote, u =>
    if u == quote then .code bs
    else if u == CodeUnit.backslash then .escape bs quote
    else .string bs quote
  | .escape bs quote, _ => .string bs quote
  | .ended, u => if u == CodeUnit.lineFeed then .code [] else .ended

/-- What is open behind a text. -/
def run (scan : Scan) (t : Text) : Scan := t.foldl after scan

/-- Nothing is open that goes on behind the end of a line. -/
def isClosed : Scan → Bool
  | .code bs | .comment bs => bs.isEmpty
  | .string _ _ | .escape _ _ => false
  | .ended => true

/-- The text closes what is open, and all that it opens. -/
def closes (scan : Scan) (t : Text) : Bool := (scan.run t).isClosed

/-- Outside of brackets no line ends, and no comment starts. -/
def staysOnLine : Scan → Text → Bool
  | _, [] => true
  | scan, u :: t =>
    !(scan == .code [] && (u.isLineEnd || u == CodeUnit.hash)) && staysOnLine (scan.after u) t

variable {scan : Scan} {u v quote : CodeUnit} {bs s t : Text}

@[simp] theorem run_nil (scan : Scan) : scan.run [] = scan := rfl

@[simp] theorem run_cons (scan : Scan) (u : CodeUnit) (t : Text) :
    scan.run (u :: t) = (scan.after u).run t := rfl

theorem run_append (scan : Scan) (s t : Text) : scan.run (s ++ t) = (scan.run s).run t :=
  List.foldl_append

theorem closes_append (scan : Scan) (s t : Text) : scan.closes (s ++ t) = (scan.run s).closes t := by
  rw [closes, run_append, closes]

@[simp] theorem staysOnLine_nil (scan : Scan) : scan.staysOnLine [] = true := rfl

theorem staysOnLine_append (scan : Scan) (s t : Text) :
    scan.staysOnLine (s ++ t) = (scan.staysOnLine s && (scan.run s).staysOnLine t) := by
  induction s generalizing scan with
  | nil => rfl
  | cons u s ih => rw [List.cons_append, staysOnLine, staysOnLine, ih, run_cons, Bool.and_assoc]

/-- Inside brackets, strings and comments nothing matters. -/
theorem staysOnLine_cons_of_code (h : scan ≠ .code []) (u : CodeUnit) (t : Text) :
    scan.staysOnLine (u :: t) = (scan.after u).staysOnLine t := by
  rw [staysOnLine, beq_eq_false_iff_ne.mpr h, Bool.false_and, Bool.not_false, Bool.true_and]

/-- A unit of a line does not matter either. -/
theorem staysOnLine_cons_of_ne (hline : u.isLineEnd = false) (hhash : u ≠ CodeUnit.hash) :
    scan.staysOnLine (u :: t) = (scan.after u).staysOnLine t := by
  rw [staysOnLine, hline, beq_eq_false_iff_ne.mpr hhash, Bool.or_false, Bool.and_false,
    Bool.not_false, Bool.true_and]

/-- A text whose units leave a state as it is. -/
theorem run_eq_self (h : ∀ u ∈ t, scan.after u = scan) : scan.run t = scan := by
  induction t with
  | nil => rfl
  | cons u t ih =>
    rw [run_cons, h u List.mem_cons_self, ih fun v hv => h v (List.mem_cons_of_mem u hv)]

/-! ### Within a line -/

theorem after_opener (h : u.isOpener = true) : (code bs).after u = .code (u :: bs) := by
  rw [after, afterCode, if_pos h]

theorem after_closer (h : u.isCloser = true) : (code (v :: bs)).after u = .code bs := by
  have hopener : u.isOpener = false := by
    rw [CodeUnit.isCloser, List.contains_iff_mem] at h
    have hall : ∀ v ∈ (")]\x7d" : Text), CodeUnit.isOpener v = false := by decide
    exact hall u h
  rw [after, afterCode, hopener, if_neg Bool.false_ne_true, if_pos h, List.tail_cons]

/-- Spaces, tabs and the units of names, numbers and operators open nothing. -/
theorem after_plain (h : u.isPlain = true) : (code bs).after u = .code bs := by
  -- each test of the scan is met by delimiters only, and a plain unit is none of them
  have havoids : ∀ p : CodeUnit → Bool, (∀ v, p v = true → v ∈ CodeUnit.delimiters) → p u = false := by
    intro p hp
    rw [← Bool.not_eq_true]
    intro hu
    rw [CodeUnit.isPlain, Bool.not_eq_true', ← Bool.not_eq_true, List.contains_iff_mem] at h
    exact h (hp u hu)
  have hopener : u.isOpener = false := havoids _ fun v hv => by
    rw [CodeUnit.isOpener, List.contains_iff_mem] at hv
    exact List.mem_append_left _ (List.mem_append_right _ hv)
  have hcloser : u.isCloser = false := havoids _ fun v hv => by
    rw [CodeUnit.isCloser, List.contains_iff_mem] at hv
    exact List.mem_append_right _ hv
  have hquote : u.isQuote = false := havoids _ fun v hv => by
    rw [CodeUnit.isQuote, Bool.or_eq_true, beq_iff_eq, beq_iff_eq] at hv
    rcases hv with rfl | rfl <;> decide
  have hhash : (u == CodeUnit.hash) = false := havoids (· == CodeUnit.hash) fun v hv => by
    rw [beq_iff_eq] at hv
    rw [hv]
    decide
  have hreturn : (u == CodeUnit.carriageReturn) = false :=
    havoids (· == CodeUnit.carriageReturn) fun v hv => by
      rw [beq_iff_eq] at hv
      rw [hv]
      decide
  rw [after, afterCode, hopener, hcloser, hquote, hhash, hreturn]
  rfl

theorem run_plain (h : ∀ u ∈ t, u.isPlain = true) : (code bs).run t = .code bs :=
  run_eq_self fun u hu => after_plain (h u hu)

theorem staysOnLine_plain (h : ∀ u ∈ t, u.isPlain = true) : (code bs).staysOnLine t = true := by
  induction t with
  | nil => rfl
  | cons u t ih =>
    have hu := h u List.mem_cons_self
    have hhash : u ≠ CodeUnit.hash := by
      rintro rfl
      exact absurd hu (by decide)
    rw [staysOnLine_cons_of_ne (CodeUnit.isLineEnd_of_isPlain hu) hhash, after_plain hu,
      ih fun v hv => h v (List.mem_cons_of_mem u hv)]

/-- A string that has started goes on with a body. -/
theorem run_body (hquote : quote ≠ CodeUnit.backslash) (h : t.IsBody quote) :
    (string bs quote).run t = .string bs quote := by
  induction h with
  | nil => rfl
  | @unit u s hu hbackslash hs ih =>
    rw [run_cons, after, if_neg (by simpa using hu), if_neg (by simpa using hbackslash), ih]
  | @escape u s hu hs ih =>
    rw [run_cons, run_cons, after, if_neg (by simpa using hquote.symm), if_pos (beq_self_eq_true _),
      after, ih]

theorem after_quote (q : Quote) : (code bs).after q.unit = .string bs q.unit := by
  cases q <;> rfl

/-- A string closes itself. -/
theorem run_string {q : Quote} (h : t.IsBody q.unit) :
    (code bs).run (q.unit :: (t ++ [q.unit])) = .code bs := by
  rw [run_cons, after_quote, run_append, run_body q.unit_ne_backslash h, run_cons, run_nil, after,
    if_pos (beq_self_eq_true _)]

theorem staysOnLine_string {q : Quote} (h : t.IsBody q.unit) :
    (code bs).staysOnLine (q.unit :: (t ++ [q.unit])) = true := by
  have hbody : (string bs q.unit).staysOnLine t = true := by
    induction h with
    | nil => rfl
    | @unit u s hu hbackslash hs ih =>
      rw [staysOnLine_cons_of_code (by simp), after, if_neg (by simpa using hu),
        if_neg (by simpa using hbackslash), ih]
    | @escape u s hu hs ih =>
      rw [staysOnLine_cons_of_code (by simp), after, if_neg (by simpa using q.unit_ne_backslash.symm),
        if_pos (beq_self_eq_true _), staysOnLine_cons_of_code (by simp), after, ih]
  rw [staysOnLine_cons_of_ne (by cases q <;> rfl) (by cases q <;> decide), after_quote,
    staysOnLine_append, hbody, run_body q.unit_ne_backslash h, staysOnLine_cons_of_code (by simp)]
  rfl

/-- A string that does not end is not closed. -/
theorem closes_unterminated {q : Quote} (h : t.IsBody q.unit)
    (hs : s = [] ∨ s = [CodeUnit.backslash]) : (code bs).closes (q.unit :: (t ++ s)) = false := by
  rw [closes, run_cons, after_quote, run_append, run_body q.unit_ne_backslash h]
  rcases hs with rfl | rfl
  · rfl
  · cases q <;> rfl

/-- A comment goes on up to the end of the line. -/
theorem run_comment (h : ∀ u ∈ t, u.isLineEnd = false) : (comment bs).run t = .comment bs :=
  run_eq_self fun u hu => by rw [after, h u hu, if_neg Bool.false_ne_true]

/-- At the end of a line it does not matter whether there is a comment. -/
theorem closes_comment (h : t.atLineEnd = true) :
    (comment bs).closes t = (code bs).closes t := by
  cases t with
  | nil => rfl
  | cons u t =>
    have hu : u.isLineEnd = true := h
    rw [closes, closes, run_cons, run_cons, after, after, if_pos hu]

theorem closes_behindComment {body : Text} (hbody : ∀ u ∈ body, u.isLineEnd = false)
    (h : t.atLineEnd = true) :
    (code []).closes t = (code []).closes (CodeUnit.hash :: body ++ t) := by
  have hhash : (Scan.code []).after CodeUnit.hash = .comment [] := rfl
  rw [closes_append, run_cons, hhash, run_comment hbody, closes_comment h]

/-! ### Gaps inside brackets, and empty lines -/

/-- Inside brackets a line end changes nothing. -/
theorem afterCode_lineEnd (h : u.isLineEnd = true) : afterCode (v :: bs) u = .code (v :: bs) := by
  rw [CodeUnit.isLineEnd, Bool.or_eq_true, beq_iff_eq, beq_iff_eq] at h
  rcases h with rfl | rfl
  · rfl
  · rfl

/-- A gap inside brackets is passed over. -/
theorem closes_layout (inComment : Bool) (t : Text) :
    (code (v :: bs)).closes (t.drop (t.layoutLength inComment))
      = closes (if inComment then .comment (v :: bs) else .code (v :: bs)) t := by
  induction t generalizing inComment with
  | nil => cases inComment <;> rfl
  | cons u t ih =>
    have hcode := ih false
    have hcomment := ih true
    rw [if_neg Bool.false_ne_true] at hcode
    rw [if_pos rfl] at hcomment
    rw [Text.layoutLength]
    -- a line end ends a comment, and the scan goes on in code behind it
    by_cases hline : u.isLineEnd = true
    · rw [if_pos hline, List.drop_succ_cons, hcode]
      cases inComment with
      | false =>
        rw [if_neg Bool.false_ne_true, closes, closes, run_cons, after, afterCode_lineEnd hline]
      | true =>
        rw [if_pos rfl, closes, closes, run_cons, after, if_pos hline, afterCode_lineEnd hline]
    · rw [if_neg hline]
      cases inComment with
      | true =>
        rw [if_pos rfl, if_pos rfl, List.drop_succ_cons, hcomment, closes, closes, run_cons, after,
          if_neg hline]
      | false =>
        rw [if_neg Bool.false_ne_true, if_neg Bool.false_ne_true]
        split_ifs with hspace hhash
        · rw [List.drop_succ_cons, hcode, closes, closes, run_cons,
            after_plain (CodeUnit.isPlain_of_isSpace hspace)]
        · obtain rfl : u = CodeUnit.hash := by simpa using hhash
          rw [List.drop_succ_cons, hcomment]
          rfl
        · rfl

theorem staysOnLine_layout (inComment : Bool) (t : Text) :
    (code (v :: bs)).staysOnLine (t.drop (t.layoutLength inComment))
      = staysOnLine (if inComment then .comment (v :: bs) else .code (v :: bs)) t := by
  -- an open bracket keeps the scan from ending the item at a line end
  have hcode : Scan.code (v :: bs) ≠ .code [] := by simp
  have hcomment : Scan.comment (v :: bs) ≠ .code [] := by simp
  induction t generalizing inComment with
  | nil => cases inComment <;> rfl
  | cons u t ih =>
    have hthen := ih true
    have helse := ih false
    rw [if_pos rfl] at hthen
    rw [if_neg Bool.false_ne_true] at helse
    rw [Text.layoutLength]
    by_cases hline : u.isLineEnd = true
    · rw [if_pos hline, List.drop_succ_cons, helse]
      cases inComment with
      | false =>
        rw [if_neg Bool.false_ne_true, staysOnLine_cons_of_code hcode, after, afterCode_lineEnd hline]
      | true =>
        rw [if_pos rfl, staysOnLine_cons_of_code hcomment, after, if_pos hline, afterCode_lineEnd hline]
    · rw [if_neg hline]
      cases inComment with
      | true =>
        rw [if_pos rfl, if_pos rfl, List.drop_succ_cons, hthen, staysOnLine_cons_of_code hcomment, after,
          if_neg hline]
      | false =>
        rw [if_neg Bool.false_ne_true, if_neg Bool.false_ne_true]
        split_ifs with hspace hhash
        · rw [List.drop_succ_cons, helse, staysOnLine_cons_of_code hcode,
            after_plain (CodeUnit.isPlain_of_isSpace hspace)]
        · obtain rfl : u = CodeUnit.hash := by simpa using hhash
          rw [List.drop_succ_cons, hthen, staysOnLine_cons_of_code hcode]
          rfl
        · rfl

/-- What a comment or a return has ended, outside of brackets, goes on up to the line feed. -/
theorem run_lineRest (hl : ∀ u ∈ t, u ≠ CodeUnit.lineFeed)
    (h : scan = .comment [] ∨ scan = .ended) : scan.run t = .comment [] ∨ scan.run t = .ended := by
  induction t generalizing scan with
  | nil => exact h
  | cons u t ih =>
    have hu := hl u List.mem_cons_self
    refine ih (fun v hv => hl v (List.mem_cons_of_mem u hv)) ?_
    rcases h with rfl | rfl
    · -- of the line ends only a carriage return is left, and behind it the line has ended
      by_cases hline : u.isLineEnd = true
      · rw [CodeUnit.isLineEnd, Bool.or_eq_true, beq_iff_eq, beq_iff_eq] at hline
        obtain rfl := hline.resolve_left hu
        exact .inr rfl
      · rw [after, if_neg hline]
        exact .inl rfl
    · rw [after, if_neg (by simpa using hu)]
      exact .inr rfl

/-- On an empty line nothing is opened. -/
theorem run_emptyLine {l : Text} (rest : Text) (hl : ∀ u ∈ l, u ≠ CodeUnit.lineFeed)
    (h : Text.isEmptyLine (l ++ rest) = true) :
    (code []).run l = .code [] ∨ (code []).run l = .comment [] ∨ (code []).run l = .ended := by
  have hgap : ∀ u ∈ l.takeWhile CodeUnit.isSpace, u.isSpace = true := Text.takeWhile_pos
  have havoids := Text.avoids_dropWhile CodeUnit.isSpace l
  have hsplit := List.takeWhile_append_dropWhile (p := CodeUnit.isSpace) (l := l)
  generalize l.takeWhile CodeUnit.isSpace = g, l.dropWhile CodeUnit.isSpace = m
    at hgap havoids hsplit
  subst hsplit
  rw [run_append, run_plain fun u hu => CodeUnit.isPlain_of_isSpace (hgap u hu)]
  cases m with
  | nil => exact .inl rfl
  | cons u m =>
    -- behind the spaces stands a return or a comment, since the line is empty
    have hu : u ≠ CodeUnit.lineFeed := hl u (List.mem_append_right g List.mem_cons_self)
    have hm : ∀ v ∈ m, v ≠ CodeUnit.lineFeed := fun v hv =>
      hl v (List.mem_append_right g (List.mem_cons_of_mem u hv))
    have hdrop : (g ++ (u :: m) ++ rest).dropWhile CodeUnit.isSpace = u :: (m ++ rest) := by
      rw [List.append_assoc]
      exact Text.dropWhile_append hgap havoids
    rw [Text.isEmptyLine, Text.isBlankLine, Text.isCommentLine, hdrop, Bool.or_eq_true] at h
    have hafter : (code []).after u = .comment [] ∨ (code []).after u = .ended := by
      rcases h with hline | hhash
      · have hline : u.isLineEnd = true := hline
        rw [CodeUnit.isLineEnd, Bool.or_eq_true, beq_iff_eq, beq_iff_eq] at hline
        obtain rfl := hline.resolve_left hu
        exact .inr rfl
      · obtain rfl : u = CodeUnit.hash := by simpa using hhash
        exact .inl rfl
    rw [run_cons]
    exact .inr (run_lineRest hm hafter)

/-- The line feed behind it ends all that it could leave open. -/
theorem run_emptyLine_lineFeed {l : Text} (rest : Text) (hl : ∀ u ∈ l, u ≠ CodeUnit.lineFeed)
    (h : Text.isEmptyLine (l ++ rest) = true) :
    (code []).run (l ++ [CodeUnit.lineFeed]) = .code [] := by
  rw [run_append]
  rcases run_emptyLine rest hl h with hrun | hrun | hrun <;> rw [hrun] <;> rfl

/-- An empty line is passed over. -/
theorem closes_lineLength (h : t.isEmptyLine = true) :
    (code []).closes (t.drop t.lineLength) = (code []).closes t := by
  obtain ⟨l, rest, hl, -, ⟨rfl, -⟩ | rfl⟩ := t.exists_line
  · have hrun := run_emptyLine [] hl (by rwa [List.append_nil])
    rw [Text.drop_lineLength_last hl, closes, closes]
    rcases hrun with hrun | hrun | hrun <;> rw [hrun] <;> rfl
  · rw [Text.drop_lineLength_append hl, ← List.singleton_append (l := rest), ← List.append_assoc,
      closes_append, run_emptyLine_lineFeed (CodeUnit.lineFeed :: rest) hl h]

/-! ### Pieces of a line -/

/--
A piece of a text that is passed as a whole, in front of the rest of the text, with the brackets that
are open before it and behind it.
-/
inductive Piece : Text → Text → Text → Text → Prop where
  | plain {bs s t : Text} (h : ∀ u ∈ s, u.isPlain = true) : Piece bs bs s t
  | opener {bs : Text} {u : CodeUnit} {t : Text} (h : u.isOpener = true) : Piece bs (u :: bs) [u] t
  | closer {bs : Text} {u v : CodeUnit} {t : Text} (h : u.isCloser = true) : Piece (v :: bs) bs [u] t
  | layout {bs : Text} {v : CodeUnit} (t : Text) :
    Piece (v :: bs) (v :: bs) (t.take (t.layoutLength false)) (t.drop (t.layoutLength false))
  | string {bs : Text} {q : Quote} {body t : Text} (h : body.IsBody q.unit) :
    Piece bs bs (q.unit :: (body ++ [q.unit])) t

/-- A gap goes as far in a beginning of a text as it does in the text, up to the end. -/
theorem layoutLength_of_isPrefix {inComment : Bool} (h : s <+: t) :
    s.layoutLength inComment = min (t.layoutLength inComment) s.length := by
  induction s generalizing inComment t with
  | nil => simp [Text.layoutLength]
  | cons u s ih =>
    obtain ⟨t, rfl⟩ := h
    have hrest : s <+: s ++ t := List.prefix_append s t
    rw [List.cons_append, Text.layoutLength, Text.layoutLength, List.length_cons]
    split_ifs
    all_goals first | rw [ih hrest, Nat.add_min_add_right] | rw [Nat.zero_min]

variable {cs : Text}

/-- Behind a gap stands what stood behind it in the whole text. -/
theorem drop_layoutLength_of_isPrefix (h : s <+: t.drop (t.layoutLength false)) :
    List.drop (Text.layoutLength false (t.take (t.layoutLength false) ++ s))
      (t.take (t.layoutLength false) ++ s) = s := by
  have hlength : (t.take (t.layoutLength false)).length = t.layoutLength false :=
    List.length_take_of_le (Text.layoutLength_le false t)
  obtain ⟨rest, hrest⟩ := h
  have hwhole : t.take (t.layoutLength false) ++ s <+: t := by
    refine ⟨rest, ?_⟩
    rw [List.append_assoc, hrest, List.take_append_drop]
  rw [layoutLength_of_isPrefix hwhole, List.length_append, hlength, Nat.min_eq_left (by omega)]
  exact List.drop_left' hlength

/-- A piece leaves open what it opens, whatever is read behind it. -/
theorem Piece.closes_eq (h : Piece bs cs s t) {u : Text} (hu : u <+: t) :
    (code cs).closes u = (code bs).closes (s ++ u) := by
  cases h with
  | plain h => rw [closes_append, run_plain h]
  | opener h => rw [closes_append, run_cons, run_nil, after_opener h]
  | closer h => rw [closes_append, run_cons, run_nil, after_closer h]
  | @layout bs v t =>
    have hgap : (code (v :: bs)).closes _ = (code (v :: bs)).closes _ :=
      closes_layout false (t.take (t.layoutLength false) ++ u)
    rwa [drop_layoutLength_of_isPrefix hu] at hgap
  | string h => rw [closes_append, run_string h]

/-- A line is left behind a piece where it is left behind what stood before. -/
theorem Piece.staysOnLine_eq (h : Piece bs cs s t) {u : Text} (hu : u <+: t) :
    (code cs).staysOnLine u = (code bs).staysOnLine (s ++ u) := by
  cases h with
  | plain h => rw [staysOnLine_append, run_plain h, staysOnLine_plain h, Bool.true_and]
  | opener h =>
    rw [List.singleton_append, staysOnLine_cons_of_ne (CodeUnit.isLineEnd_of_isOpener h),
      after_opener h]
    rintro rfl
    exact absurd h (by decide)
  | closer h => rw [List.singleton_append, staysOnLine_cons_of_code (by simp), after_closer h]
  | @layout bs v t =>
    have hgap : (code (v :: bs)).staysOnLine _ = (code (v :: bs)).staysOnLine _ :=
      staysOnLine_layout false (t.take (t.layoutLength false) ++ u)
    rwa [drop_layoutLength_of_isPrefix hu] at hgap
  | string h => rw [staysOnLine_append, run_string h, staysOnLine_string h, Bool.true_and]

/-- Outside of brackets a piece does not end a line. -/
theorem Piece.isLineEnd_getLast (h : Piece bs [] s t) {u : CodeUnit} (hu : s.getLast? = some u) :
    u.isLineEnd = false := by
  cases h with
  | plain h => exact CodeUnit.isLineEnd_of_isPlain (h u (List.mem_of_getLast? hu))
  | closer h =>
    obtain rfl : _ = u := by simpa using hu
    exact CodeUnit.isLineEnd_of_isCloser h
  | @string _ q =>
    rw [List.getLast?_cons, List.getLast?_concat] at hu
    obtain rfl : q.unit = u := by simpa using hu
    cases q <;> rfl

end Scan

end GDScript
