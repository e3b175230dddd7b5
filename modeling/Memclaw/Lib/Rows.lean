import Mathlib.Data.Nat.Notation

/-! Tables as lists of rows in order of insertion: rows are appended and rewritten in place
by statements of the form `UPDATE … WHERE`, so that a row keeps its position. -/

namespace Memclaw.Lib.Rows

variable {α : Type}

def update (p : α → Bool) (f : α → α) (rows : List α) : List α :=
  rows.map fun row => if p row then f row else row

theorem mem_update {p : α → Bool} {f : α → α} {rows : List α} {row : α} :
    row ∈ update p f rows ↔ ∃ old ∈ rows, (if p old then f old else old) = row := List.mem_map

@[simp] theorem getElem?_update (p : α → Bool) (f : α → α) (rows : List α) (i : ℕ) :
    (update p f rows)[i]? = rows[i]?.map fun row => if p row then f row else row :=
  List.getElem?_map

theorem forall_update {P : α → Prop} {p : α → Bool} {f : α → α} {rows : List α}
    (h : ∀ row ∈ rows, P row) (hf : ∀ row ∈ rows, p row = true → P row → P (f row)) :
    ∀ row ∈ update p f rows, P row := by
  intro row hrow
  obtain ⟨old, hold, rfl⟩ := mem_update.mp hrow
  split
  · next hp => exact hf old hold hp (h old hold)
  · exact h old hold

theorem forall_append {P : α → Prop} {rows : List α} {row : α} (h : ∀ row ∈ rows, P row)
    (hrow : P row) : ∀ other ∈ rows ++ [row], P other := by
  intro other hother
  rcases List.mem_append.mp hother with hold | hnew
  · exact h other hold
  · exact List.mem_singleton.mp hnew ▸ hrow

theorem filter_eq_of_agree {p q : α → Bool} {rows rows' : List α}
    (hagree : rows.filter q = rows'.filter q) (h : ∀ row ∈ rows, p row = true → q row = true)
    (h' : ∀ row ∈ rows', p row = true → q row = true) : rows.filter p = rows'.filter p := by
  have hwithin : ∀ {list : List α}, (∀ row ∈ list, p row = true → q row = true) →
      (list.filter q).filter p = list.filter p := by
    intro list hlist
    rw [List.filter_filter]
    refine List.filter_congr fun row hrow => ?_
    cases hp : p row with
    | false => rfl
    | true => rw [hlist row hrow hp, Bool.and_self]
  calc rows.filter p = (rows.filter q).filter p := (hwithin h).symm
    _ = (rows'.filter q).filter p := by rw [hagree]
    _ = rows'.filter p := hwithin h'

/-- Every row is still there, and has changed along `R` only. -/
def Evolves (R : α → α → Prop) (rows rows' : List α) : Prop :=
  ∀ (i : ℕ) (row : α), rows[i]? = some row → ∃ row', rows'[i]? = some row' ∧ R row row'

namespace Evolves

variable {R : α → α → Prop}

theorem refl (hR : ∀ row, R row row) (rows : List α) : Evolves R rows rows :=
  fun _ row hrow => ⟨row, hrow, hR row⟩

theorem trans (hR : ∀ {a b c}, R a b → R b c → R a c) {rows rows' rows'' : List α}
    (h : Evolves R rows rows') (h' : Evolves R rows' rows'') : Evolves R rows rows'' := by
  intro i row hrow
  obtain ⟨row', hrow', hto⟩ := h i row hrow
  obtain ⟨row'', hrow'', hto'⟩ := h' i row' hrow'
  exact ⟨row'', hrow'', hR hto hto'⟩

theorem map {f : α → α} {rows : List α} (hf : ∀ row ∈ rows, R row (f row)) :
    Evolves R rows (rows.map f) := by
  intro i row hrow
  exact ⟨f row, by rw [List.getElem?_map, hrow]; rfl, hf row (List.mem_of_getElem? hrow)⟩

theorem update (hR : ∀ row, R row row) {p : α → Bool} {f : α → α} {rows : List α}
    (hf : ∀ row ∈ rows, p row = true → R row (f row)) : Evolves R rows (update p f rows) := by
  refine map fun row hrow => ?_
  split
  · next hp => exact hf row hrow hp
  · exact hR row

theorem append (hR : ∀ row, R row row) (rows more : List α) : Evolves R rows (rows ++ more) := by
  intro i row hrow
  have hlt : i < rows.length := (List.getElem?_eq_some_iff.mp hrow).1
  exact ⟨row, (List.getElem?_append_left hlt).trans hrow, hR row⟩

end Evolves

end Memclaw.Lib.Rows
