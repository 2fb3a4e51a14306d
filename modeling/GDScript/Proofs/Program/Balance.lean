import GDScript.Proofs.Program.Machine
import GDScript.Proofs.Leading

/-!
# Programs are balanced

Whatever a program is made of, and however it ends, it leaves the machine as it found it: the rules
that are active, the brackets and the limit are those from before (`Machine.IsBack`), a program that
finishes has not gone back, and a failure that can be recovered from has been kept, unless one that lies
further has. `Machine.Balances` says this of what a step comes to. Each step has it, and whatever steps
are put together have it (`Program.isBalanced_exec`, by induction on programs). Only an exceeded limit
may replace what was kept by a failure that lies less far, and it is never recovered from.
-/

namespace GDScript

/-! ### The failure that got furthest -/

namespace Machine

variable {m : Machine} {noted : Bool} {e : ParseError} {n : Nat}

/-- Some failure lies at the offset or behind it. -/
def Reaches (m : Machine) (n : Nat) : Prop :=
  ∃ b, m.furthest = some b ∧ n ≤ b.location.offset

/-- The machine is the same but for the failure that got furthest and, perhaps, for the cursor. -/
structure IsBack (m m' : Machine) : Prop where
  contexts_eq : m'.contexts = m.contexts
  nesting_eq : m'.nesting = m.nesting
  limit_eq : m'.limit = m.limit

theorem IsBack.refl (m : Machine) : m.IsBack m := ⟨rfl, rfl, rfl⟩

theorem IsBack.trans {m' m'' : Machine} (h : m.IsBack m') (h' : m'.IsBack m'') : m.IsBack m'' :=
  ⟨h'.contexts_eq.trans h.contexts_eq, h'.nesting_eq.trans h.nesting_eq,
    h'.limit_eq.trans h.limit_eq⟩

theorem record_eq (noted : Bool) (e : ParseError) (m : Machine) :
    ∃ best, m.record noted e = { m with furthest := best } := by
  unfold record
  split
  · exact ⟨_, rfl⟩
  · split
    · exact ⟨_, rfl⟩
    · exact ⟨m.furthest, rfl⟩

theorem isBack_record : m.IsBack (m.record noted e) := by
  obtain ⟨best, heq⟩ := record_eq noted e m
  rw [heq]
  exact ⟨rfl, rfl, rfl⟩

theorem cursor_record : (m.record noted e).cursor = m.cursor := by
  obtain ⟨best, heq⟩ := record_eq noted e m
  rw [heq]

/-- What is kept lies no less far than the failure. -/
theorem reaches_record : (m.record noted e).Reaches e.location.offset := by
  unfold record
  split
  · exact ⟨e, rfl, Nat.le_refl _⟩
  · next best hbest =>
    split
    · exact ⟨e, rfl, Nat.le_refl _⟩
    · next hfar => exact ⟨best, hbest, by omega⟩

/-- What is kept lies no less far than what was kept before. -/
theorem Reaches.record (h : m.Reaches n) : (m.record noted e).Reaches n := by
  obtain ⟨b, hb, hn⟩ := h
  unfold Machine.record
  rw [hb]
  dsimp only
  split
  · exact ⟨e, rfl, by omega⟩
  · exact ⟨b, hb, hn⟩

end Machine

/-! ### Balanced steps -/

/-- The depth limit is exceeded, and this is what got furthest. -/
def Ended.IsTooDeep {α : Type} (ended : Ended α) : Prop :=
  ∃ e, ended.1 = .error (.parse e) ∧ e.code = .nestingTooDeep ∧ e.recoverable = false ∧
    ended.2.furthest = some e

/-- What a step comes to from a state, however it ends. -/
structure Machine.Balances {α : Type} (m : Machine) (ended : Ended α) : Prop where
  back : m.IsBack ended.2
  /-- A step that finishes goes on. -/
  forward : ∀ v, ended.1 = .ok v → m.cursor.Reaches ended.2.cursor
  /-- A recoverable failure is kept, or one that lies no less far. -/
  kept : ∀ e, ended.1 = .error (.parse e) → e.recoverable = true → ended.2.Reaches e.location.offset
  /-- Only an exceeded limit replaces what was kept by what lies less far. -/
  grows : ended.IsTooDeep ∨ ∀ n, m.Reaches n → ended.2.Reaches n

namespace Machine

variable {α β : Type} {m m' : Machine} {ended : Ended α} {e : ParseError}

theorem balances_finished {v : α} (hback : m.IsBack m') (hforward : m.cursor.Reaches m'.cursor)
    (hgrows : ∀ n, m.Reaches n → m'.Reaches n) : m.Balances (.ok v, m') :=
  ⟨hback, fun _ _ => hforward, fun _ h => (by cases h), .inr hgrows⟩

theorem balances_raise : m.Balances (Action.raise e m : Ended α) := by
  refine ⟨isBack_record, fun _ h => (by cases h), fun d hd _ => ?_, .inr fun n hn => hn.record⟩
  cases hd
  exact reaches_record

/-- A failure that is none of the grammar leaves everything as it was. -/
theorem balances_misuse (misuse : Misuse) : m.Balances ((.error (.misuse misuse), m) : Ended α) :=
  ⟨.refl m, fun _ h => (by cases h), fun _ h => (by cases h), .inr fun _ hn => hn⟩

/-- What comes after something that has finished. -/
theorem Balances.after (h : m'.Balances ended) (hback : m.IsBack m')
    (hforward : m.cursor.Reaches m'.cursor) (hgrows : ∀ n, m.Reaches n → m'.Reaches n) :
    m.Balances ended := by
  refine ⟨hback.trans h.back, fun v hv => hforward.trans (h.forward v hv), h.kept, ?_⟩
  exact h.grows.imp id fun hreach n hn => hreach n (hgrows n hn)

/-- A failure is one of another step as well. -/
theorem Balances.failed {failure : Failure} (h : m.Balances ((.error failure, m') : Ended α)) :
    m.Balances ((.error failure, m') : Ended β) :=
  ⟨h.back, fun _ hv => (by cases hv), fun e he => h.kept e (by cases he; rfl), h.grows.imp
    (fun ⟨e, he, hdeep⟩ => ⟨e, by cases he; rfl, hdeep⟩) id⟩

/-- A step that finishes has only made what was kept grow. -/
theorem Balances.grows_of_finished {v : α} (h : m.Balances ((.ok v, m') : Ended α)) :
    ∀ n, m.Reaches n → m'.Reaches n := by
  refine h.grows.resolve_left ?_
  rintro ⟨e, he, -⟩
  cases he

/-- A step that fails recoverably has only made what was kept grow. -/
theorem Balances.grows_of_recoverable {failure : Failure}
    (h : m.Balances ((.error failure, m') : Ended α)) (hrec : failure.recoverable? = some e) :
    ∀ n, m.Reaches n → m'.Reaches n := by
  obtain ⟨rfl, he⟩ := Failure.exists_of_recoverable? hrec
  refine h.grows.resolve_left ?_
  rintro ⟨d, hd, -, hfinal, -⟩
  cases hd
  exact Bool.noConfusion (he.symm.trans hfinal)

end Machine

namespace Action

open Machine

variable {α β : Type} {a : Action α} {m : Machine}

/-- The step is balanced from every state. -/
def IsBalanced (a : Action α) : Prop := ∀ m : Machine, m.Balances (a m)

theorem isBalanced_read (reader : Reader α) (strays : Text → Nat) :
    IsBalanced (read reader strays) := by
  intro m
  rw [read]
  split
  · exact balances_finished ⟨rfl, rfl, rfl⟩ (m.cursor.reaches_advanceBy _) fun _ hn => hn
  · exact balances_raise.after ⟨rfl, rfl, rfl⟩ (m.cursor.reaches_advanceBy _) fun _ hn => hn

theorem isBalanced_gap : IsBalanced gap := by
  intro m
  rw [gap]
  split <;> exact isBalanced_read _ _ m

theorem isBalanced_fail (request : Except Misuse Complaint) (place : Option Location) :
    IsBalanced (fail request place : Action α) := by
  intro m
  cases request with
  | ok complaint => exact balances_raise
  | error misuse => exact balances_misuse misuse

theorem isBalanced_note (request : Except Misuse Complaint) (place : Option Location) :
    IsBalanced (note request place) := by
  intro m
  cases request with
  | ok complaint =>
    exact balances_finished isBack_record (cursor_record ▸ .refl _) fun n hn => hn.record
  | error misuse => exact balances_misuse misuse

theorem IsBalanced.bind {f : α → Action β} (ha : IsBalanced a) (hf : ∀ v, IsBalanced (f v)) :
    IsBalanced (bind a f) := by
  intro m
  have hfirst := ha m
  rw [Action.bind]
  cases hrun : a m with
  | mk result m' =>
    rw [hrun] at hfirst
    cases result with
    | error failure => exact hfirst.failed
    | ok v =>
      exact (hf v m').after hfirst.back (hfirst.forward v rfl) hfirst.grows_of_finished

/-- What is done on the way in and undone on the way out leaves a step as it is. -/
theorem IsBalanced.between {enter leave : Machine → Machine} (ha : IsBalanced a)
    (hcursor : (enter m).cursor = m.cursor) (hfurthest : (enter m).furthest = m.furthest)
    (hcursor' : ∀ m', (leave m').cursor = m'.cursor)
    (hfurthest' : ∀ m', (leave m').furthest = m'.furthest)
    (hback : ∀ m', (enter m).IsBack m' → m.IsBack (leave m')) :
    m.Balances (between enter leave a m) := by
  obtain ⟨hinner, hforward, hkept, hgrows⟩ := ha (enter m)
  -- leaving changes neither the cursor nor the furthest error
  have hreaches : ∀ {m' n}, m'.Reaches n → (leave m').Reaches n := fun ⟨b, hb, hn⟩ =>
    ⟨b, (hfurthest' _).trans hb, hn⟩
  refine ⟨hback _ hinner, fun v hv => ?_, fun e he hrec => hreaches (hkept e he hrec), ?_⟩
  · rw [← hcursor]
    exact (hcursor' _).symm ▸ hforward v hv
  · rcases hgrows with ⟨e, he, hcode, hfinal, hbest⟩ | hgrows
    · exact .inl ⟨e, he, hcode, hfinal, (hfurthest' _).trans hbest⟩
    · refine .inr fun n ⟨b, hb, hn⟩ => hreaches (hgrows n ⟨b, ?_, hn⟩)
      rw [hfurthest, hb]

theorem IsBalanced.within (label : Text) (ha : IsBalanced a) : IsBalanced (within label a) := by
  intro m
  by_cases hroom : m.limit ≤ m.contexts.length
  · rw [within_of_full hroom]
    exact ⟨⟨rfl, rfl, rfl⟩, fun _ h => (by cases h), fun e he hrec => (by cases he; cases hrec),
      .inl ⟨_, rfl, rfl, rfl, rfl⟩⟩
  · rw [within_of_room hroom]
    refine ha.between rfl rfl (fun _ => rfl) (fun _ => rfl) fun m' hback => ?_
    refine ⟨?_, hback.nesting_eq, hback.limit_eq⟩
    show m'.contexts.tail = m.contexts
    rw [hback.contexts_eq]
    rfl

theorem IsBalanced.bracketed (ha : IsBalanced a) : IsBalanced (bracketed a) := by
  refine fun m => ha.between rfl rfl (fun _ => rfl) (fun _ => rfl) fun m' hback => ?_
  refine ⟨hback.contexts_eq, ?_, hback.limit_eq⟩
  show m'.nesting - 1 = m.nesting
  rw [hback.nesting_eq]
  rfl

/-- After a recoverable failure the cursor is put back, and nothing else has to be. -/
theorem IsBalanced.put_back {failure : Failure} {e : ParseError} {m' : Machine} (ha : IsBalanced a)
    (hrun : a m = (.error failure, m')) (hrec : failure.recoverable? = some e) :
    m.IsBack { m' with cursor := m.cursor } ∧ ∀ n, m.Reaches n → m'.Reaches n := by
  have hbalances := ha m
  rw [hrun] at hbalances
  obtain ⟨hcontexts, hnesting, hlimit⟩ := hbalances.back
  exact ⟨⟨hcontexts, hnesting, hlimit⟩, hbalances.grows_of_recoverable hrec⟩

theorem IsBalanced.attempt (ha : IsBalanced a) : IsBalanced (attempt a) := by
  intro m
  have hbalances := ha m
  cases hrun : a m with
  | mk result m' =>
    rw [hrun] at hbalances
    cases result with
    | ok v =>
      rw [attempt_of_finished hrun]
      exact balances_finished hbalances.back (hbalances.forward v rfl) hbalances.grows_of_finished
    | error failure =>
      -- only a recoverable failure puts the cursor back
      cases hrec : failure.recoverable? with
      | none =>
        rw [attempt_of_final hrun hrec]
        exact hbalances.failed
      | some e =>
        obtain ⟨hback, hgrows⟩ := ha.put_back hrun hrec
        rw [attempt_of_recoverable hrun hrec]
        exact balances_finished hback (.refl _) hgrows

/-- The best failure so far is one that can be recovered from, and it has been kept. -/
def IsKept (best : Option ParseError) (m : Machine) : Prop :=
  ∀ b, best = some b → b.recoverable = true ∧ m.Reaches b.location.offset

theorem IsKept.better {best : Option ParseError} {e : ParseError} {m' : Machine}
    (h : IsKept best m) (hgrows : ∀ n, m.Reaches n → m'.Reaches n) (he : e.recoverable = true)
    (hreach : m'.Reaches e.location.offset) : IsKept (some (better best e)) m' := by
  intro b hb
  obtain rfl := Option.some.inj hb
  cases best with
  | none => exact ⟨he, hreach⟩
  | some b =>
    obtain ⟨hrec, hb⟩ := h b rfl
    rw [Action.better, Parser.further]
    split
    · exact ⟨he, hreach⟩
    · exact ⟨hrec, hgrows _ hb⟩

theorem balances_tries {actions : List (Action α)} (h : ∀ a ∈ actions, IsBalanced a)
    {best : Option ParseError} (hbest : IsKept best m) : m.Balances (tries actions best m) := by
  -- on the alternatives left, with the best error of those before
  induction actions generalizing m best with
  | nil =>
    cases best with
    | none =>
      exact ⟨.refl m, fun _ h => (by cases h), fun _ h => (by cases h), .inr fun _ hn => hn⟩
    | some b =>
      refine ⟨.refl m, fun _ h => (by cases h), fun e he _ => ?_, .inr fun _ hn => hn⟩
      cases he
      exact (hbest b rfl).2
  | cons a rest ih =>
    have ha := h a List.mem_cons_self
    have hbalances := ha m
    cases hrun : a m with
    | mk result m' =>
      rw [hrun] at hbalances
      cases result with
      | ok v =>
        rw [tries_of_finished hrun]
        exact hbalances
      | error failure =>
        cases hrec : failure.recoverable? with
        | none =>
          rw [tries_of_final hrun hrec]
          exact hbalances
        | some e =>
          rw [tries_of_recoverable hrun hrec]
          obtain ⟨rfl, he⟩ := Failure.exists_of_recoverable? hrec
          obtain ⟨hback, hgrows⟩ := ha.put_back hrun hrec
          have hkept : IsKept (some (better best e)) { m' with cursor := m.cursor } :=
            hbest.better hgrows he (hbalances.kept e rfl he)
          exact (ih (fun b hb => h b (List.mem_cons_of_mem a hb)) hkept).after hback (.refl _) hgrows

end Action

/-- Every program is balanced. -/
theorem Program.isBalanced_exec {α : Type} (p : Program α) : Action.IsBalanced p.exec := by
  induction p with
  | pure v => exact fun m => Machine.balances_finished (.refl m) (.refl _) fun _ hn => hn
  | bind p f ih ihf => exact ih.bind ihf
  | here => exact fun m => Machine.balances_finished (.refl m) (.refl _) fun _ hn => hn
  | gap => exact Action.isBalanced_gap
  | read reader strays => exact Action.isBalanced_read reader strays
  | fail request place => exact Action.isBalanced_fail request place
  | note request place => exact Action.isBalanced_note request place
  | within label p ih => exact ih.within label
  | bracketed p ih => exact ih.bracketed
  | attempt p ih => exact ih.attempt
  -- no alternative has been tried yet, so there is no best error
  | choice alternatives ih =>
    refine fun m => Action.balances_tries (fun a ha => ?_) fun b hb => by cases hb
    obtain ⟨i, -, rfl⟩ := List.mem_map.mp ha
    exact ih i

end GDScript
