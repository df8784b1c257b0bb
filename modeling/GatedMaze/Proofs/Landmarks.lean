import GatedMaze.Maze.Survey
import GatedMaze.Proofs.Walks

/-!
# Landmarks

Keys and starts are the landmarks of a maze. A key's id says where it lies; the id of the starts is
above those of all keys.

* `place_unique`: no key letter lies twice.
* `sorted_keys`, `sorted_keyIds`: the keys are listed in ascending order.
* `landmark?_eq_some_iff`, `landmark?_eq_start_iff`: which landmark goes by an id.
* `keyIds_lt_startId`: the id of the starts is above those of the keys.
-/

namespace GatedMaze.Maze

variable {m : Maze} {p q : Coord} {k : Letter} {a : Int}

/-- **No key letter lies twice.** -/
theorem place_unique (hp : m.at? p = some (.key k)) (hq : m.at? q = some (.key k)) : p = q := by
  have hbp : m.board.Holds p := Board.isSome_get?.1 (Option.isSome_iff_exists.2 ⟨_, hp⟩)
  have hbq : m.board.Holds q := Board.isSome_get?.1 (Option.isSome_iff_exists.2 ⟨_, hq⟩)
  rw [at?, Board.get?_of_holds hbp] at hp
  rw [at?, Board.get?_of_holds hbq] at hq
  obtain ⟨hi, hki⟩ := Array.getElem?_eq_some_iff.1 hp
  obtain ⟨hj, hkj⟩ := Array.getElem?_eq_some_iff.1 hq
  -- two slots with the key would give it twice among the keys of the board
  have hnodup := List.pairwise_iff_getElem.1 (List.pairwise_filterMap.1 m.keys_nodup)
  refine Board.slot_inj hbp hbq ?_
  rcases Nat.lt_trichotomy (m.board.slot p) (m.board.slot q) with h | h | h
  · exact absurd rfl (hnodup _ _ hi hj h k (by simp [hki, Cell.key?]) k (by simp [hkj, Cell.key?]))
  · exact h
  · exact absurd rfl (hnodup _ _ hj hi h k (by simp [hkj, Cell.key?]) k (by simp [hki, Cell.key?]))

/-- No letter is listed twice. -/
theorem nodup_letters (m : Maze) : (m.keys.map Prod.fst).Nodup := by
  have hperm := (List.mergeSort_perm
    (m.board.places.filterMap fun v => v.2.key?.map fun k => (k, v.1))
    fun a b => decide (a.1 ≤ b.1)).map Prod.fst
  have hcells : m.board.places.map Prod.snd = m.board.cells.toList := by
    rw [Board.places, List.map_map]
    exact List.zipIdx_map_fst 0 _
  have hletter : (fun v : Coord × Cell => (v.2.key?.map fun k => (k, v.1)).map Prod.fst) =
      Cell.key? ∘ Prod.snd := by
    funext v
    obtain ⟨p, c⟩ := v
    cases c <;> rfl
  unfold keys
  rw [hperm.nodup_iff, List.map_filterMap, hletter, ← List.filterMap_map, hcells]
  exact m.keys_nodup

/-- The listed keys ascend by letter. -/
theorem sorted_keys (m : Maze) : m.keys.Pairwise fun a b => a.1 < b.1 := by
  have hle : m.keys.Pairwise fun a b => decide (a.1 ≤ b.1) = true :=
    List.pairwise_mergeSort (fun a b c hab hbc => by
      simp only [decide_eq_true_eq] at *
      exact Fin.le_trans hab hbc) (fun a b => by
      simp only [Bool.or_eq_true, decide_eq_true_eq]
      exact Fin.le_total a.1 b.1) _
  have hne : m.keys.Pairwise fun a b => a.1 ≠ b.1 := List.pairwise_map.1 m.nodup_letters
  refine (hle.and hne).imp fun hab => ?_
  have hle := Fin.le_def.1 (of_decide_eq_true hab.1)
  have hne := Fin.val_ne_of_ne hab.2
  exact Fin.lt_def.2 (by omega)

theorem sorted_keyIds (m : Maze) : m.keyIds.Pairwise (· < ·) :=
  List.pairwise_map.2 (m.sorted_keys.imp fun h => Int.ofNat_lt.2 h)

/-- The last key listed has the largest letter. -/
theorem val_lt_startId (h : m.at? p = some (.key k)) : k.val < m.startId := by
  have hmem := mem_keys.2 h
  have hsorted := m.sorted_keys
  unfold startId
  cases hl : m.keys.getLast? with
  | none => rw [List.getLast?_eq_none_iff] at hl; simp [hl] at hmem
  | some last =>
    obtain ⟨init, hinit⟩ := List.getLast?_eq_some_iff.1 hl
    rw [hinit] at hsorted hmem
    have hle : k ≤ last.1 := by
      rcases List.mem_append.1 hmem with hm | hm
      · exact Fin.le_of_lt
          ((List.pairwise_append.1 hsorted).2.2 _ hm last (List.mem_singleton_self _))
      · obtain rfl := List.mem_singleton.1 hm
        exact Fin.le_refl _
    exact Nat.lt_succ_of_le hle

theorem mem_keyIds : a ∈ m.keyIds ↔ ∃ k p, m.at? p = some (.key k) ∧ (k.val : Int) = a := by
  simp only [keyIds, List.mem_map, Prod.exists, mem_keys]

theorem keyIds_lt_startId (h : a ∈ m.keyIds) : 0 ≤ a ∧ a < m.startId ∧ a < IdSet.capacity := by
  obtain ⟨k, p, hk, rfl⟩ := mem_keyIds.1 h
  have := val_lt_startId hk
  have := k.isLt
  unfold IdSet.capacity
  omega

theorem startId_notMem_keyIds : (m.startId : Int) ∉ m.keyIds := fun h =>
  Int.lt_irrefl _ (keyIds_lt_startId h).2.1

theorem mem_starts : p ∈ m.starts ↔ m.at? p = some .start := mem_placesOf

/-- A landmark is a key or a start. -/
theorem landmark?_eq_some_iff : m.landmark? p = some a ↔
    (∃ k : Letter, m.at? p = some (.key k) ∧ (k.val : Int) = a) ∨
      m.at? p = some .start ∧ a = m.startId := by
  unfold landmark?
  cases m.at? p with
  | none => simp
  | some c => cases c <;> simp [eq_comm]

theorem landmark?_of_key (h : m.at? p = some (.key k)) : m.landmark? p = some (k.val : Int) :=
  landmark?_eq_some_iff.2 (.inl ⟨k, h, rfl⟩)

theorem landmark?_of_start (h : m.at? p = some .start) : m.landmark? p = some (m.startId : Int) :=
  landmark?_eq_some_iff.2 (.inr ⟨h, rfl⟩)

/-- The starts are the landmarks that go by their id. -/
theorem landmark?_eq_start_iff : m.landmark? p = some (m.startId : Int) ↔ m.at? p = some .start := by
  constructor
  · intro h
    rcases landmark?_eq_some_iff.1 h with ⟨k, hk, he⟩ | ⟨hs, -⟩
    · have := val_lt_startId hk
      omega
    · exact hs
  · exact landmark?_of_start

/-- A landmark that goes by another id is the key of this id. -/
theorem exists_key_of_landmark? (h : m.landmark? p = some a) (ha : a ≠ m.startId) :
    ∃ k : Letter, m.at? p = some (.key k) ∧ (k.val : Int) = a := by
  rcases landmark?_eq_some_iff.1 h with hk | ⟨-, he⟩
  · exact hk
  · exact absurd he ha

/-- The id of a key says where it lies. -/
theorem landmark_unique (hp : m.landmark? p = some a) (hq : m.landmark? q = some a)
    (ha : a ≠ m.startId) : p = q := by
  obtain ⟨k, hk, rfl⟩ := exists_key_of_landmark? hp ha
  obtain ⟨j, hj, he⟩ := exists_key_of_landmark? hq ha
  obtain rfl : j = k := Fin.ext (by omega)
  exact place_unique hk hj

theorem isOpen_of_landmark? (h : m.landmark? p = some a) : m.IsOpen p := by
  rcases landmark?_eq_some_iff.1 h with ⟨k, hk, -⟩ | ⟨hs, -⟩
  · exact ⟨_, hk, by simp⟩
  · exact ⟨_, hs, by simp⟩

theorem not_gate_of_landmark? (h : m.landmark? p = some a) (g : Letter) :
    m.at? p ≠ some (.gate g) := by
  rcases landmark?_eq_some_iff.1 h with ⟨k, hk, -⟩ | ⟨hs, -⟩
  · simp [hk]
  · simp [hs]

theorem landmark?_range (h : m.landmark? p = some a) : 0 ≤ a ∧ a < m.startId + 1 := by
  rcases landmark?_eq_some_iff.1 h with ⟨k, hk, rfl⟩ | ⟨-, rfl⟩
  · have := val_lt_startId hk
    omega
  · omega

end GatedMaze.Maze
