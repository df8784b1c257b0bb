import GatedMaze.Proofs.Walks

/-!
# Keeping to the gates

A place may be entered when it is open and, if it is a gate, when the place of its key was visited
before. What was visited before is a list of places, so the rule is the same for one agent and for
several.

* `admits_append_iff`: entering some places and then others.
* `admits_of_gates`: places may be entered in turn when the keys of all their gates were seen.
-/

namespace GatedMaze.Maze

/-- Whether a place may be entered by agents that have been at the places `seen`. -/
def Lets (m : Maze) (seen : List Coord) (q : Coord) : Prop :=
  m.IsOpen q ∧ ∀ g, m.at? q = some (.gate g) → ∃ p ∈ seen, m.at? p = some (.key g)

/-- Whether places may be entered in turn by agents that have been at the places `seen`. -/
def Admits (m : Maze) (seen : List Coord) : List Coord → Prop
  | [] => True
  | q :: qs => m.Lets seen q ∧ m.Admits (seen ++ [q]) qs

instance (m : Maze) (seen : List Coord) (q : Coord) : Decidable (m.Lets seen q) :=
  inferInstanceAs (Decidable (m.IsOpen q ∧
    ∀ g, m.at? q = some (.gate g) → ∃ p ∈ seen, m.at? p = some (.key g)))

instance decidableAdmits (m : Maze) : ∀ seen xs, Decidable (m.Admits seen xs)
  | _, [] => isTrue trivial
  | seen, q :: qs => @instDecidableAnd _ _ inferInstance (decidableAdmits m (seen ++ [q]) qs)

variable {m : Maze} {seen seen' xs ys : List Coord} {p q x : Coord} {g : Letter}

/-- **Entering some places and then others.** -/
theorem admits_append_iff :
    m.Admits seen (xs ++ ys) ↔ m.Admits seen xs ∧ m.Admits (seen ++ xs) ys := by
  induction xs generalizing seen with
  | nil => simp [Admits]
  | cons q qs ih =>
    simp only [List.cons_append, Admits, ih, List.append_assoc, List.nil_append, and_assoc]

theorem Admits.isOpen (h : m.Admits seen xs) (hx : x ∈ xs) : m.IsOpen x := by
  induction xs generalizing seen with
  | nil => simp at hx
  | cons q qs ih =>
    rcases List.mem_cons.1 hx with rfl | hx
    · exact h.1.1
    · exact ih h.2 hx

/-- The key of each gate that was entered was seen. -/
theorem Admits.exists_key (h : m.Admits seen xs) (hx : x ∈ xs) (hg : m.at? x = some (.gate g)) :
    ∃ p ∈ seen ++ xs, m.at? p = some (.key g) := by
  induction xs generalizing seen with
  | nil => simp at hx
  | cons q qs ih =>
    rcases List.mem_cons.1 hx with rfl | hx
    · obtain ⟨p, hp, hk⟩ := h.1.2 g hg
      exact ⟨p, List.mem_append_left _ hp, hk⟩
    · obtain ⟨p, hp, hk⟩ := ih h.2 hx
      exact ⟨p, by simpa using hp, hk⟩

/-- A place behind gates without keys is not entered. -/
theorem Admits.notMem_of_keyless {s : Coord} {ds : List Move} (h : m.Admits [s] (s.trail ds))
    (hs : m.at? s = some .start) (hq : ∀ x d, x.step d = q → m.IsOpen x →
      ∃ g, m.at? x = some (.gate g) ∧ ∀ z, m.at? z ≠ some (.key g)) : q ∉ s.trail ds := by
  intro hmem
  obtain ⟨x, hx, d, hd⟩ := Coord.exists_step_of_mem_trail hmem
  have ho : m.IsOpen x := by
    rcases List.mem_cons.1 hx with rfl | hx
    · exact ⟨.start, hs, by decide⟩
    · exact h.isOpen hx
  obtain ⟨g, hg, hno⟩ := hq x d hd ho
  have hne : x ≠ s := fun e => by
    rw [e, hs] at hg
    cases hg
  obtain ⟨z, -, hz⟩ := h.exists_key ((List.mem_cons.1 hx).resolve_left hne) hg
  exact hno z hz

/-- **Places may be entered in turn when the keys of all their gates were seen.** -/
theorem admits_of_gates (ho : ∀ x ∈ xs, m.IsOpen x)
    (hg : ∀ x ∈ xs, ∀ g, m.at? x = some (.gate g) → ∃ p ∈ seen, m.at? p = some (.key g)) :
    m.Admits seen xs := by
  induction xs generalizing seen with
  | nil => trivial
  | cons q qs ih =>
    refine ⟨⟨ho q List.mem_cons_self, hg q List.mem_cons_self⟩, ?_⟩
    refine ih (fun x hx => ho x (List.mem_cons_of_mem _ hx)) fun x hx g hx' => ?_
    obtain ⟨p, hp, hk⟩ := hg x (List.mem_cons_of_mem _ hx) g hx'
    exact ⟨p, List.mem_append_left _ hp, hk⟩

end GatedMaze.Maze
