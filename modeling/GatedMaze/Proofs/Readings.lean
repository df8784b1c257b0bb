import GatedMaze.Proofs.Lines
import GatedMaze.Proofs.Outcomes
import Mathlib.Data.List.Pairwise

/-!
# What a maze text may be

Lines are those of a maze when they are of one length, their characters are those of cells, no key lies
twice and there is a start. Else their first defect is reported.

* `decode_ok`, `decode_error`: what is read from characters, and which of them is refused.
* `readable_of_ok`, `defective_of_error`: what a reading of lines says about them.
* `Defective.not_readable`, `Defective.unique`: lines of a maze have no defect, and others one first.
-/

namespace GatedMaze

/-- The small letters, which draw keys. -/
def IsKeyChar (ch : Char) : Prop := 'a' ≤ ch ∧ ch ≤ 'z'

/-- The characters that draw cells. -/
def IsCellChar (ch : Char) : Prop :=
  ch = '#' ∨ ch = '.' ∨ ch = '@' ∨ IsKeyChar ch ∨ 'A' ≤ ch ∧ ch ≤ 'Z'

namespace Cell

variable {c d : Cell} {ch : Char}

theorem toNat_char (c : Cell) : c.char.toNat = c.glyph := by
  cases c with
  | wall => rfl
  | floor => rfl
  | start => rfl
  | key k => revert k; decide
  | gate g => revert g; decide

theorem char_eq_of_glyph (h : c.glyph = ch.toNat) : c.char = ch := by
  rw [char, h, Char.ofNat_toNat]

/-- **A character draws the cell that is drawn with it.** -/
theorem ofChar?_eq_some_iff : ofChar? ch = some c ↔ c.char = ch := by
  rw [ofChar?, ofGlyph?_eq_some_iff]
  constructor
  · exact char_eq_of_glyph
  · rintro rfl
    exact (toNat_char c).symm

theorem char_inj (h : c.char = d.char) : c = d := by
  have hc := ofChar?_eq_some_iff.2 h
  rw [ofChar?_eq_some_iff.2 rfl] at hc
  exact (Option.some.inj hc).symm

theorem isKeyChar_iff : IsKeyChar ch ↔ ∃ k, (key k).char = ch := by
  constructor
  · rintro ⟨ha, hz⟩
    have ha : 0x61 ≤ ch.toNat := ha
    have hz : ch.toNat ≤ 0x7A := hz
    have hlt : ch.toNat - 0x61 < 26 := by omega
    exact ⟨⟨ch.toNat - 0x61, hlt⟩, char_eq_of_glyph (Nat.add_sub_cancel' ha)⟩
  · rintro ⟨k, rfl⟩
    revert k
    unfold IsKeyChar
    decide

theorem isCellChar_iff : IsCellChar ch ↔ ∃ c : Cell, c.char = ch := by
  unfold IsCellChar
  rw [isKeyChar_iff]
  constructor
  · rintro (rfl | rfl | rfl | ⟨k, rfl⟩ | ⟨ha, hz⟩)
    · exact ⟨wall, rfl⟩
    · exact ⟨floor, rfl⟩
    · exact ⟨start, rfl⟩
    · exact ⟨key k, rfl⟩
    · have ha : 0x41 ≤ ch.toNat := ha
      have hz : ch.toNat ≤ 0x5A := hz
      have hlt : ch.toNat - 0x41 < 26 := by omega
      exact ⟨gate ⟨ch.toNat - 0x41, hlt⟩, char_eq_of_glyph (Nat.add_sub_cancel' ha)⟩
  · rintro ⟨c, rfl⟩
    cases c with
    | wall => exact .inl rfl
    | floor => exact .inr (.inl rfl)
    | start => exact .inr (.inr (.inl rfl))
    | key k => exact .inr (.inr (.inr (.inl ⟨k, rfl⟩)))
    | gate g =>
      refine .inr (.inr (.inr (.inr ?_)))
      revert g
      decide

end Cell

namespace Maze

open Coord

variable {lines : List (List Char)} {p q : Coord} {drawn : List Letter} {xs : List (Coord × Char)}
  {cells : List Cell} {e e' : Fault} {m : Maze}

/-- **What is read from characters** are the cells that they draw. -/
theorem decode_ok (h : decode drawn xs = .ok cells) : cells.map Cell.char = xs.map Prod.snd := by
  induction xs generalizing drawn cells with
  | nil =>
    obtain rfl := Except.ok.inj h
    rfl
  | cons x xs ih =>
    obtain ⟨cell, cells', rfl, hc, ⟨-, hd⟩ | ⟨k, -, -, hd⟩⟩ := decode_cons h
    all_goals rw [List.map_cons, List.map_cons, ih hd, Cell.ofChar?_eq_some_iff.1 hc]

/-- Why a character is refused after others that were read: it draws no cell, or a key that was drawn
before. -/
inductive Refused (drawn : List Letter) (before : List Cell) (ch : Char) : Defect → Prop
  | unknown : ¬ IsCellChar ch → Refused drawn before ch (.unknownCharacter ch)
  | repeated (k : Letter) : (Cell.key k).char = ch → k ∈ drawn ∨ Cell.key k ∈ before →
      Refused drawn before ch (.repeatedKey ch)

variable {cell : Cell} {ch : Char} {d d' : Defect}

/-- What is refused in view of a key that was drawn is refused after the cell of this key. -/
theorem Refused.cons (h : Refused (cell.key?.toList ++ drawn) cells ch d) :
    Refused drawn (cell :: cells) ch d := by
  cases h with
  | unknown hu => exact .unknown hu
  | repeated k hk hmem =>
    refine .repeated k hk ?_
    rcases hmem with hmem | hmem
    · rcases List.mem_append.1 hmem with hmem | hmem
      · cases cell with
        | key j =>
          obtain rfl : k = j := List.mem_singleton.1 hmem
          exact .inr List.mem_cons_self
        | _ => cases hmem
      · exact .inl hmem
    · exact .inr (List.mem_cons_of_mem _ hmem)

/-- A character is refused, or it draws a cell whose key was not drawn before. -/
theorem refused_or_exists_cell (drawn : List Letter) (ch : Char) : (∃ d, Refused drawn [] ch d) ∨
    ∃ cell : Cell, cell.char = ch ∧ ∀ k, cell = .key k → k ∉ drawn := by
  by_cases hcell : IsCellChar ch
  · obtain ⟨cell, hc⟩ := Cell.isCellChar_iff.1 hcell
    by_cases hold : ∃ k, cell = .key k ∧ k ∈ drawn
    · obtain ⟨k, rfl, hk⟩ := hold
      exact .inl ⟨_, .repeated k hc (.inl hk)⟩
    · exact .inr ⟨cell, hc, fun k hk hmem => hold ⟨k, hk, hmem⟩⟩
  · exact .inl ⟨_, .unknown hcell⟩

theorem decode_of_refused (h : Refused drawn [] ch d) :
    decode drawn ((p, ch) :: xs) = .error (.defectAt d p) := by
  cases h with
  | unknown hu =>
    have hnone : Cell.ofChar? ch = none := by
      cases hc : Cell.ofChar? ch with
      | none => rfl
      | some c => exact absurd (Cell.isCellChar_iff.2 ⟨c, Cell.ofChar?_eq_some_iff.1 hc⟩) hu
    rw [decode, hnone]
  | repeated k hk hmem =>
    have hmem : k ∈ drawn := hmem.resolve_right List.not_mem_nil
    rw [decode, Cell.ofChar?_eq_some_iff.2 hk]
    simp only [Cell.key?, if_pos hmem]

/-- A character that is not refused draws the first cell, and a key that it draws is not drawn again. -/
theorem decode_of_char (hc : cell.char = ch) (hnew : ∀ k, cell = .key k → k ∉ drawn) :
    decode drawn ((p, ch) :: xs) = (decode (cell.key?.toList ++ drawn) xs).map (cell :: ·) := by
  rw [decode, Cell.ofChar?_eq_some_iff.2 hc]
  cases cell with
  | key k => simp only [Cell.key?, if_neg (hnew k rfl), Option.toList_some, List.singleton_append]
  | _ => rfl

/-- **The first character that is refused** is reported. -/
theorem decode_error (h : decode drawn xs = .error e) : ∃ before p ch after cells d,
    xs = before ++ (p, ch) :: after ∧ decode drawn before = .ok cells ∧
      Refused drawn cells ch d ∧ e = .defectAt d p := by
  induction xs generalizing drawn with
  | nil => cases h
  | cons x xs ih =>
    obtain ⟨p, ch⟩ := x
    rcases refused_or_exists_cell drawn ch with ⟨d, href⟩ | ⟨cell, hc, hnew⟩
    · rw [decode_of_refused href] at h
      exact ⟨[], p, ch, xs, [], d, rfl, rfl, href, (Except.error.inj h).symm⟩
    · rw [decode_of_char hc hnew, map_error_iff] at h
      obtain ⟨before, q, c, after, cells, d, rfl, hb, href, rfl⟩ := ih h
      refine ⟨(p, ch) :: before, q, c, after, cell :: cells, d, rfl, ?_, href.cons, rfl⟩
      rw [decode_of_char hc hnew, hb]
      rfl

/-- The characters that are read draw cells. -/
theorem exists_cell_of_decode (h : decode [] xs = .ok cells) (hx : (p, ch) ∈ xs) :
    ∃ c ∈ cells, c.char = ch := by
  have hmem : ch ∈ cells.map Cell.char := by
    rw [decode_ok h]
    exact List.mem_map.2 ⟨(p, ch), hx, rfl⟩
  exact List.mem_map.1 hmem

/-- No key is read twice. -/
theorem eq_of_decode (h : decode [] xs = .ok cells) (hk : IsKeyChar ch)
    (hp : (p, ch) ∈ xs) (hq : (q, ch) ∈ xs) : p = q := by
  have hcells : (cells.map Cell.char).Pairwise fun a b => IsKeyChar a → a ≠ b := by
    refine List.pairwise_map.2 ((List.pairwise_filterMap.1 (nodup_decode h).1).imp ?_)
    intro a b hab ha he
    obtain ⟨k, hak⟩ := Cell.isKeyChar_iff.1 ha
    obtain rfl := Cell.char_inj hak
    obtain rfl := Cell.char_inj he
    exact hab k rfl k rfl rfl
  rw [decode_ok h] at hcells
  have : Std.Symm fun a b : Coord × Char => IsKeyChar a.2 → a.2 ≠ b.2 :=
    ⟨fun a b hab hb he => hab (he ▸ hb) he.symm⟩
  by_contra hne
  exact (List.pairwise_map.1 hcells).forall hp hq (fun e => hne (congrArg Prod.fst e)) hk rfl

/-- What is refused at a place of a drawing: a character that draws no cell, or a key that was drawn
before. -/
inductive CellDefect (lines : List (List Char)) (p : Coord) : Defect → Prop
  | unknown (ch : Char) : charAt? lines p = some ch → ¬ IsCellChar ch →
      CellDefect lines p (.unknownCharacter ch)
  | repeated (ch : Char) (q : Coord) : charAt? lines p = some ch → IsKeyChar ch → q.Before p →
      charAt? lines q = some ch → CellDefect lines p (.repeatedKey ch)

/-- Whether lines are of one length. -/
def Uniform (lines : List (List Char)) : Prop := ∀ l ∈ lines, ∀ l' ∈ lines, l.length = l'.length

/-- The lines of a maze. -/
structure Readable (lines : List (List Char)) : Prop where
  nonempty : lines ≠ []
  uniform : Uniform lines
  known : ∀ p ch, charAt? lines p = some ch → IsCellChar ch
  once : ∀ p q ch, IsKeyChar ch → charAt? lines p = some ch → charAt? lines q = some ch → p = q
  start : ∃ p, charAt? lines p = some '@'

/-- The first defect of lines that are no maze: there are none, a line is not as long as the first one,
a character is refused, or there is no start. -/
inductive Defective (lines : List (List Char)) : Fault → Prop
  | empty : lines = [] → Defective lines (.defectOf .empty)
  | ragged (first line : List Char) (r : Nat) : lines.head? = some first → lines[r]? = some line →
      line.length ≠ first.length → (∀ l ∈ lines.take r, l.length = first.length) →
      Defective lines (.defectAt (.width line.length first.length)
        ⟨r, (min line.length first.length : Nat)⟩)
  | cell (p : Coord) (d : Defect) : lines ≠ [] → Uniform lines → CellDefect lines p d →
      (∀ q d', q.Before p → ¬ CellDefect lines q d') → Defective lines (.defectAt d p)
  | noStart : lines ≠ [] → Uniform lines → (∀ p d, ¬ CellDefect lines p d) →
      (∀ p, charAt? lines p ≠ some '@') → Defective lines (.defectOf .noStart)

/-- What is read from lines is drawn on a board of their size. -/
theorem ofLines_ok (h : ofLines lines = .ok m) : ∃ first rest cells, lines = first :: rest ∧
    (∀ l ∈ lines, l.length = first.length) ∧ decode [] (placed 0 lines) = .ok cells ∧
      .start ∈ cells ∧ m.board.rows = lines.length ∧ m.board.cols = first.length ∧
      m.board.cells = cells.toArray := by
  unfold ofLines at h
  split at h
  · cases h
  · next first rest =>
    split at h
    · cases h
    · next hr =>
      split at h
      · cases h
      · next cells hd =>
        split at h
        · next hs =>
          obtain rfl := Except.ok.inj h
          exact ⟨first, rest, cells, rfl, length_of_raggedLine? hr, hd, hs, rfl, rfl, rfl⟩
        · cases h

theorem uniform_of_forall {first : List Char} (h : ∀ l ∈ lines, l.length = first.length) : Uniform lines :=
  fun l hl l' hl' => (h l hl).trans (h l' hl').symm

/-- The characters that are read have no defects. -/
theorem not_cellDefect_of_decode (h : decode [] xs = .ok cells)
    (hxs : ∀ q c, q = p ∨ q.Before p → charAt? lines q = some c → (q, c) ∈ xs) :
    ¬ CellDefect lines p d := by
  intro hd
  cases hd with
  | unknown ch hp hu =>
    obtain ⟨c, -, hc⟩ := exists_cell_of_decode h (hxs p ch (.inl rfl) hp)
    exact hu (Cell.isCellChar_iff.2 ⟨c, hc⟩)
  | repeated ch q hp hk hqp hq =>
    have := eq_of_decode h hk (hxs p ch (.inl rfl) hp) (hxs q ch (.inr hqp) hq)
    exact Before.irrefl q (this ▸ hqp)

/-- **Lines that are read are lines of a maze.** -/
theorem readable_of_ok (h : ofLines lines = .ok m) : Readable lines := by
  obtain ⟨first, rest, cells, rfl, huniform, hd, hs, -⟩ := ofLines_ok h
  refine ⟨by simp, uniform_of_forall huniform, fun p ch hp => ?_, fun p q ch hk hp hq => ?_, ?_⟩
  · obtain ⟨c, -, hc⟩ := exists_cell_of_decode hd (mem_placed.2 hp)
    exact Cell.isCellChar_iff.2 ⟨c, hc⟩
  · exact eq_of_decode hd hk (mem_placed.2 hp) (mem_placed.2 hq)
  · have hmem : '@' ∈ (placed 0 (first :: rest)).map Prod.snd := by
      rw [← decode_ok hd]
      exact List.mem_map.2 ⟨.start, hs, rfl⟩
    obtain ⟨⟨p, ch⟩, hp, rfl⟩ := List.mem_map.1 hmem
    exact ⟨p, mem_placed.1 hp⟩

/-- A character before another one is listed before it. -/
theorem mem_of_before {before after : List (Coord × Char)} {c : Char}
    (hxs : placed 0 lines = before ++ (p, ch) :: after) (hqp : q.Before p)
    (hq : charAt? lines q = some c) : (q, c) ∈ before := by
  have hsorted := sorted_placed 0 lines
  have hmem := mem_placed.2 hq
  rw [hxs] at hsorted hmem
  rcases List.mem_append.1 hmem with hmem | hmem
  · exact hmem
  · rcases List.mem_cons.1 hmem with he | hmem
    · exact absurd hqp ((Prod.mk.injEq .. ▸ he).1 ▸ Before.irrefl q)
    · have := (List.pairwise_cons.1 (List.pairwise_append.1 hsorted).2.1).1 (q, c) hmem
      exact absurd hqp this.asymm

/-- **The character that is refused first** is the first defect of a cell. -/
theorem cellDefect_of_decode (h : decode [] (placed 0 lines) = .error e) : ∃ p d,
    e = .defectAt d p ∧ CellDefect lines p d ∧ ∀ q d', q.Before p → ¬ CellDefect lines q d' := by
  obtain ⟨before, p, ch, after, cells, d, hxs, hb, href, rfl⟩ := decode_error h
  have hp : charAt? lines p = some ch := by
    rw [← mem_placed, hxs]
    exact List.mem_append_right _ List.mem_cons_self
  refine ⟨p, d, rfl, ?_, fun q d' hqp => not_cellDefect_of_decode hb fun x c hx hxc => ?_⟩
  · cases href with
    | unknown hu => exact .unknown ch hp hu
    | repeated k hk hmem =>
      have hmem := hmem.resolve_left (List.not_mem_nil)
      have hch : ch ∈ before.map Prod.snd := by
        rw [← decode_ok hb]
        exact List.mem_map.2 ⟨.key k, hmem, hk⟩
      obtain ⟨⟨q, c⟩, hq, hc⟩ := List.mem_map.1 hch
      obtain rfl : c = ch := hc
      have hsorted := sorted_placed 0 lines
      rw [hxs] at hsorted
      have hqp : q.Before p := (List.pairwise_append.1 hsorted).2.2 _ hq _ List.mem_cons_self
      have hq : charAt? lines q = some c := by
        rw [← mem_placed, hxs]
        exact List.mem_append_left _ hq
      exact .repeated c q hp (Cell.isKeyChar_iff.2 ⟨k, hk⟩) hqp hq
  · rcases hx with rfl | hxq
    · exact mem_of_before hxs hqp hxc
    · exact mem_of_before hxs (hxq.trans hqp) hxc

/-- **What is reported about lines is their first defect.** -/
theorem defective_of_error (h : ofLines lines = .error e) : Defective lines e := by
  unfold ofLines at h
  split at h
  · obtain rfl := Except.error.inj h
    exact .empty rfl
  · next first rest =>
    split at h
    · next r found hr =>
      obtain rfl := Except.error.inj h
      obtain ⟨i, line, rfl, hl, rfl, hne, hb⟩ := raggedLine?_eq_some hr
      rw [Nat.zero_add]
      exact .ragged first line i rfl hl hne hb
    · next hr =>
      have huniform := uniform_of_forall (length_of_raggedLine? hr)
      split at h
      · next e' hd =>
        obtain rfl := Except.error.inj h
        obtain ⟨p, d, rfl, hp, hbefore⟩ := cellDefect_of_decode hd
        exact .cell p d (List.cons_ne_nil _ _) huniform hp hbefore
      · next cells hd =>
        split at h
        · cases h
        · next hs =>
          obtain rfl := Except.error.inj h
          refine .noStart (List.cons_ne_nil _ _) huniform (fun p d => ?_) fun p hp => ?_
          · exact not_cellDefect_of_decode hd fun q c _ hq => mem_placed.2 hq
          · obtain ⟨c, hc, hch⟩ := exists_cell_of_decode hd (mem_placed.2 hp)
            have hstart : c = .start := Cell.char_inj hch
            exact hs (hstart ▸ hc)

theorem CellDefect.unique (h : CellDefect lines p d) (h' : CellDefect lines p d') : d = d' := by
  have hchar : ∀ {a b}, charAt? lines p = some a → charAt? lines p = some b → a = b :=
    fun ha hb => Option.some.inj (ha.symm.trans hb)
  cases h with
  | unknown ch hp hu =>
    cases h' with
    | unknown ch' hp' => rw [hchar hp hp']
    | repeated ch' q' hp' hk' =>
      obtain rfl := hchar hp hp'
      exact absurd (.inr (.inr (.inr (.inl hk')))) hu
  | repeated ch q hp hk =>
    cases h' with
    | unknown ch' hp' hu' =>
      obtain rfl := hchar hp hp'
      exact absurd (.inr (.inr (.inr (.inl hk)))) hu'
    | repeated ch' q' hp' => rw [hchar hp hp']

/-- A line that is not as long as the first one. -/
theorem not_uniform {first line : List Char} {r : Nat} (hf : lines.head? = some first)
    (hl : lines[r]? = some line) (hne : line.length ≠ first.length) : ¬ Uniform lines :=
  fun he => hne (he line (List.mem_of_getElem? hl) first (List.mem_of_head? hf))

/-- **Lines with a defect are no maze.** -/
theorem Defective.not_readable (h : Defective lines e) : ¬ Readable lines := by
  intro hr
  cases h with
  | empty h0 => exact hr.nonempty h0
  | ragged first line r hf hl hne => exact not_uniform hf hl hne hr.uniform
  | cell p d _ _ hp =>
    cases hp with
    | unknown ch hp hu => exact hu (hr.known p ch hp)
    | repeated ch q hp hk hqp hq => exact Before.irrefl q (hr.once p q ch hk hp hq ▸ hqp)
  | noStart _ _ _ hs =>
    obtain ⟨p, hp⟩ := hr.start
    exact hs p hp

/-- **There is one first defect.** -/
theorem Defective.unique (h : Defective lines e) (h' : Defective lines e') : e = e' := by
  cases h with
  | empty h0 =>
    subst h0
    cases h' with
    | empty => rfl
    | ragged first line r hf => cases hf
    | cell p d hne => exact absurd rfl hne
    | noStart hne => exact absurd rfl hne
  | ragged first line r hf hl hne hb =>
    cases h' with
    | empty h0 =>
      rw [h0] at hf
      cases hf
    | ragged first' line' r' hf' hl' hne' hb' =>
      obtain rfl : first = first' := Option.some.inj (hf.symm.trans hf')
      have hmem : ∀ {i j : Nat} {l : List Char}, lines[i]? = some l → i < j → l ∈ lines.take j :=
        fun hi hij => List.mem_of_getElem? (List.getElem?_take_of_lt hij ▸ hi)
      rcases Nat.lt_trichotomy r r' with hlt | rfl | hlt
      · exact absurd (hb' line (hmem hl hlt)) hne
      · obtain rfl : line = line' := Option.some.inj (hl.symm.trans hl')
        rfl
      · exact absurd (hb line' (hmem hl' hlt)) hne'
    | cell p d _ he => exact absurd he (not_uniform hf hl hne)
    | noStart _ he => exact absurd he (not_uniform hf hl hne)
  | cell p d hne he hp hb =>
    cases h' with
    | empty h0 => exact absurd h0 hne
    | ragged first line r hf hl hne => exact absurd he (not_uniform hf hl hne)
    | cell p' d' _ _ hp' hb' =>
      rcases before_trichotomy p p' with hlt | rfl | hlt
      · exact absurd hp (hb' p d hlt)
      · rw [hp.unique hp']
      · exact absurd hp' (hb p' d' hlt)
    | noStart _ _ hno => exact absurd hp (hno p d)
  | noStart hne he hno hs =>
    cases h' with
    | empty h0 => exact absurd h0 hne
    | ragged first line r hf hl hne => exact absurd he (not_uniform hf hl hne)
    | cell p d _ _ hp => exact absurd hp (hno p d)
    | noStart => rfl

end Maze

end GatedMaze
