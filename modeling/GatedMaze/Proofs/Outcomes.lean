import GatedMaze.Progress

/-!
# What a successful computation says

A computation that is put together from others succeeds when each of them does. These lemmas take
a success apart, for plain computations and for those that leave notes.

* `bind_ok_iff`, `bind_error_iff`, `map_ok_iff`, `map_error_iff`, `Noted.outcome_bind_ok_iff`: one
  computation after another, and a function of its value.
* `foldlM_ok_of_forall`, `foldlM_error_of_forall`: a fold whose steps all succeed is a plain fold, and the
  fault of a fold is that of a step.
* `foldlM_invariant`, `foldlM_established`: what the steps of a fold keep or bring about.
* `outcomeMap_bind`, `foldlM_outcomeMap`: computations that correspond step by step.
* `Noted.notes_bind_of_ok`, `Noted.notes_bind_of_error`: the notes of one computation after another.
-/

namespace GatedMaze

section Plain

variable {ε α β : Type}

theorem bind_ok_iff {x : Except ε α} {f : α → Except ε β} {b : β} :
    x >>= f = .ok b ↔ ∃ a, x = .ok a ∧ f a = .ok b := by
  cases x <;> simp [bind, Except.bind]

theorem bind_error_iff {x : Except ε α} {f : α → Except ε β} {e : ε} :
    x >>= f = .error e ↔ x = .error e ∨ ∃ a, x = .ok a ∧ f a = .error e := by
  cases x <;> simp [bind, Except.bind]

theorem map_ok_iff {x : Except ε α} {f : α → β} {b : β} :
    x.map f = .ok b ↔ ∃ a, x = .ok a ∧ f a = b := by
  cases x <;> simp [Except.map]

theorem map_error_iff {x : Except ε α} {f : α → β} {e : ε} :
    x.map f = .error e ↔ x = .error e := by
  cases x <;> simp [Except.map]

@[simp] theorem pure_eq_ok (a : α) : (pure a : Except ε α) = .ok a := rfl

/-- A fold whose steps all succeed is a plain fold. -/
theorem foldlM_ok_of_forall {f : β → α → Except ε β} {g : β → α → β} {xs : List α} (b : β)
    (h : ∀ b, ∀ x ∈ xs, f b x = .ok (g b x)) : xs.foldlM f b = .ok (xs.foldl g b) := by
  induction xs generalizing b with
  | nil => rfl
  | cons x xs ih =>
    rw [List.foldlM_cons, h b x List.mem_cons_self, List.foldl_cons]
    exact ih (g b x) fun b y hy => h b y (List.mem_cons_of_mem x hy)

/-- What every step keeps, a fold keeps. -/
theorem foldlM_invariant {P : β → Prop} {f : β → α → Except ε β} {xs : List α} {b b' : β}
    (hkeep : ∀ x ∈ xs, ∀ b b', f b x = .ok b' → P b → P b') (h : xs.foldlM f b = .ok b') (hb : P b) :
    P b' := by
  induction xs generalizing b with
  | nil => exact Except.ok.inj h ▸ hb
  | cons x xs ih =>
    rw [List.foldlM_cons] at h
    obtain ⟨c, hc, h⟩ := bind_ok_iff.1 h
    exact ih (fun y hy => hkeep y (List.mem_cons_of_mem x hy)) h (hkeep x List.mem_cons_self b c hc hb)

/-- What one step brings about and all later steps keep holds after a fold. -/
theorem foldlM_established {P : β → Prop} {f : β → α → Except ε β} {before after : List α} {x : α}
    {b b' : β} (hx : ∀ b b', f b x = .ok b' → P b')
    (hkeep : ∀ y ∈ after, ∀ b b', f b y = .ok b' → P b → P b')
    (h : (before ++ x :: after).foldlM f b = .ok b') : P b' := by
  rw [List.foldlM_append] at h
  obtain ⟨c, -, h⟩ := bind_ok_iff.1 h
  rw [List.foldlM_cons] at h
  obtain ⟨d, hd, h⟩ := bind_ok_iff.1 h
  exact foldlM_invariant hkeep h (hx c d hd)

end Plain

section Corresponding

variable {ε ε' α α' β β' : Type}

/-- An outcome of which the value and the fault are changed. -/
def outcomeMap (g : α → β) (h : ε → ε') (x : Except ε α) : Except ε' β := (x.map g).mapError h

@[simp] theorem outcomeMap_ok (g : α → β) (h : ε → ε') (a : α) :
    outcomeMap g h (.ok a) = .ok (g a) := rfl

@[simp] theorem outcomeMap_error (g : α → β) (h : ε → ε') (e : ε) :
    outcomeMap g h (.error e : Except ε α) = .error (h e) := rfl

theorem outcomeMap_bind {g : α → α'} {k : β → β'} {h : ε → ε'} {f : α → Except ε β}
    {f' : α' → Except ε' β'} (hf : ∀ a, f' (g a) = outcomeMap k h (f a)) (x : Except ε α) :
    outcomeMap g h x >>= f' = outcomeMap k h (x >>= f) := by
  cases x with
  | error e => rfl
  | ok a => exact hf a

/-- Folds that go in step have outcomes that correspond. -/
theorem foldlM_outcomeMap {g : α → α'} {k : β → β'} {h : ε → ε'} {f : β → α → Except ε β}
    {f' : β' → α' → Except ε' β'} {xs : List α}
    (hf : ∀ b, ∀ a ∈ xs, f' (k b) (g a) = outcomeMap k h (f b a)) (b : β) :
    (xs.map g).foldlM f' (k b) = outcomeMap k h (xs.foldlM f b) := by
  induction xs generalizing b with
  | nil => rfl
  | cons x xs ih =>
    have hrest : ∀ c, (xs.map g).foldlM f' (k c) = outcomeMap k h (xs.foldlM f c) :=
      ih fun c a ha => hf c a (List.mem_cons_of_mem x ha)
    rw [List.map_cons, List.foldlM_cons, List.foldlM_cons, hf b x List.mem_cons_self]
    exact outcomeMap_bind hrest _

end Corresponding

namespace Noted

variable {ν α β : Type}

theorem outcome_bind_of_ok {x : Noted ν α} {f : α → Noted ν β} {a : α} (h : x.outcome = .ok a) :
    (x >>= f).outcome = (f a).outcome := by
  rw [outcome_bind, h]; rfl

theorem outcome_bind_of_error {x : Noted ν α} {f : α → Noted ν β} {e : Fault}
    (h : x.outcome = .error e) : (x >>= f).outcome = .error e := by
  rw [outcome_bind, h]; rfl

theorem outcome_bind_ok_iff {x : Noted ν α} {f : α → Noted ν β} {b : β} :
    (x >>= f).outcome = .ok b ↔ ∃ a, x.outcome = .ok a ∧ (f a).outcome = .ok b := by
  rw [outcome_bind]
  exact bind_ok_iff

@[simp] theorem outcome_ofExcept (x : Except Fault α) : (ofExcept x : Noted ν α).outcome = x := rfl

@[simp] theorem outcome_note (n : ν) : (note n).outcome = .ok () := rfl

@[simp] theorem outcome_pure (a : α) : (pure a : Noted ν α).outcome = .ok a := rfl

@[simp] theorem outcome_notesOf (ns : List ν) : (notesOf ns).outcome = .ok () := rfl

theorem notes_bind_of_ok {x : Noted ν α} {f : α → Noted ν β} {a : α} (h : x.outcome = .ok a) :
    (x >>= f).notes = x.notes ++ (f a).notes := by
  rw [notes_bind, h]

@[simp] theorem notes_ofExcept (x : Except Fault α) : (ofExcept x : Noted ν α).notes = [] := rfl

@[simp] theorem notes_note (n : ν) : (note n).notes = [n] := rfl

@[simp] theorem notes_pure (a : α) : (pure a : Noted ν α).notes = [] := rfl

end Noted

end GatedMaze
