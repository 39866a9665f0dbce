/-
Tables as lists of rows, with what the database enforces on them carried by
the type: a unique key, part of which may be NULL (`Table`), and a primary
key the database generates (`Serial`).

Rows only ever change by the operations below, each of which keeps the key,
so no proof about a run has to show again that a key is still unique.
-/
import Mathlib.Data.List.Basic
import Mathlib.Data.List.Nodup
import Mathlib.Data.List.Pairwise
import Mathlib.Tactic.Common

/-- Rows with a unique key. A NULL key (`none`) never conflicts, as in MySQL. -/
structure Table (ρ κ : Type) (key : ρ → Option κ) where
  rows : List ρ
  unique : rows.Pairwise fun a b => key a = none ∨ key a ≠ key b

namespace Table

variable {ρ κ : Type} {key : ρ → Option κ} [DecidableEq κ]

/-- The rows with key `k`, as a query with `where key = k` returns them. -/
def select (t : Table ρ κ key) (k : κ) : List ρ := t.rows.filter fun r => key r = some k

/-- The row with key `k`. -/
def find? (t : Table ρ κ key) (k : κ) : Option ρ := t.rows.find? fun r => key r = some k

/-- The key `k` is taken. -/
def Has (t : Table ρ κ key) (k : κ) : Prop := ∃ r ∈ t.rows, key r = some k

instance (t : Table ρ κ key) (k : κ) : Decidable (t.Has k) :=
  inferInstanceAs (Decidable (∃ r ∈ t.rows, key r = some k))

/-- `r` may be appended: its key is NULL or not taken. -/
def Admits (t : Table ρ κ key) (r : ρ) : Prop := ∀ a ∈ t.rows, key a = none ∨ key a ≠ key r

instance (t : Table ρ κ key) (r : ρ) : Decidable (t.Admits r) :=
  inferInstanceAs (Decidable (∀ a ∈ t.rows, key a = none ∨ key a ≠ key r))

/-- An insert: refused (`none`) when the key is taken. -/
def insert (t : Table ρ κ key) (r : ρ) : Option (Table ρ κ key) :=
  if h : t.Admits r then
    some
      { rows := t.rows ++ [r]
        unique := List.pairwise_append.2
          ⟨t.unique, List.pairwise_singleton _ _, fun a ha b hb => by
            rw [List.mem_singleton] at hb; subst hb; exact h a ha⟩ }
  else none

/-- An update that leaves the key alone. -/
def update (t : Table ρ κ key) (f : ρ → ρ) (hf : ∀ r, key (f r) = key r) : Table ρ κ key where
  rows := t.rows.map f
  unique := List.pairwise_map.2 (t.unique.imp fun h => by simpa only [hf] using h)

/-- A `delete ... where p`. -/
def delete (t : Table ρ κ key) (p : ρ → Bool) : Table ρ κ key where
  rows := t.rows.filter fun r => !p r
  unique := t.unique.filter _

omit [DecidableEq κ] in
theorem ext_rows {t t' : Table ρ κ key} (h : t.rows = t'.rows) : t = t' := by
  obtain ⟨l, hl⟩ := t
  obtain ⟨l', hl'⟩ := t'
  simpa using h

theorem has_iff_find? {t : Table ρ κ key} {k : κ} : t.Has k ↔ (t.find? k).isSome := by
  simp [Has, find?, List.find?_isSome]

theorem key_of_find? {t : Table ρ κ key} {k : κ} {r : ρ} (h : t.find? k = some r) : key r = some k := by
  simpa using List.find?_some h

/-- A query on the key returns the row that has it, or nothing. -/
theorem select_eq (t : Table ρ κ key) (k : κ) : t.select k = (t.find? k).toList := by
  obtain ⟨l, hl⟩ := t
  simp only [select, find?]
  induction l with
  | nil => rfl
  | cons a l ih =>
    rw [List.pairwise_cons] at hl
    by_cases ha : key a = some k
    · have : l.filter (fun r => key r = some k) = [] := by
        rw [List.filter_eq_nil_iff]
        intro b hb
        have := hl.1 b hb
        simp_all [eq_comm]
      simp [ha, this]
    · simpa [ha] using ih hl.2

theorem find?_of_mem (t : Table ρ κ key) {k : κ} {r : ρ} (hr : r ∈ t.rows) (hk : key r = some k) :
    t.find? k = some r := by
  have hsel : r ∈ t.select k := List.mem_filter.2 ⟨hr, by simpa using hk⟩
  rw [select_eq] at hsel
  simpa using hsel

/-! ## Inserts -/

omit [DecidableEq κ] in
theorem admits_of_key {t : Table ρ κ key} {r : ρ} {k : κ} (hr : key r = some k) :
    t.Admits r ↔ ¬ t.Has k := by
  simp only [Admits, Has, hr, not_exists, not_and]
  refine forall₂_congr fun a _ => ⟨?_, fun h => .inr h⟩
  intro h he
  rcases h with h | h
  · simp [he] at h
  · exact h he

theorem insert_eq_some {t t' : Table ρ κ key} {r : ρ} :
    t.insert r = some t' ↔ t.Admits r ∧ t'.rows = t.rows ++ [r] := by
  obtain ⟨l', h'⟩ := t'
  unfold insert
  split
  · next h => simp [h, eq_comm]
  · next h => simp [h]

theorem insert_of_admits {t : Table ρ κ key} {r : ρ} (h : t.Admits r) :
    ∃ t', t.insert r = some t' ∧ t'.rows = t.rows ++ [r] := by
  unfold insert
  rw [dif_pos h]
  exact ⟨_, rfl, rfl⟩

theorem insert_eq_none {t : Table ρ κ key} {r : ρ} : t.insert r = none ↔ ¬ t.Admits r := by
  unfold insert; split <;> simp_all

theorem has_of_insert {t t' : Table ρ κ key} {r : ρ} (h : t.insert r = some t') {k : κ} :
    t'.Has k ↔ t.Has k ∨ key r = some k := by
  rw [insert_eq_some] at h
  simp only [Has, h.2, List.mem_append, List.mem_singleton, or_and_right, exists_or, exists_eq_left]

/-! ## Deletes -/

omit [DecidableEq κ] in
theorem mem_delete {t : Table ρ κ key} {p : ρ → Bool} {r : ρ} :
    r ∈ (t.delete p).rows ↔ r ∈ t.rows ∧ p r = false := by
  simp [delete]

omit [DecidableEq κ] in
/-- Deleting a key leaves the others. -/
theorem has_delete_iff {t : Table ρ κ key} {p : ρ → Bool} {k k' : κ}
    (hp : ∀ r, p r = true ↔ key r = some k) : (t.delete p).Has k' ↔ t.Has k' ∧ k' ≠ k := by
  constructor
  · intro h
    obtain ⟨r, hr, hk⟩ := h
    rw [mem_delete] at hr
    refine ⟨⟨r, hr.1, hk⟩, ?_⟩
    intro h
    subst h
    rw [(hp r).2 hk] at hr
    exact absurd hr.2 (by simp)
  · intro h
    obtain ⟨⟨r, hr, hk⟩, hne⟩ := h
    refine ⟨r, mem_delete.2 ⟨hr, ?_⟩, hk⟩
    rw [Bool.eq_false_iff, ne_eq, hp, hk, Option.some.injEq]
    exact hne

/-! ## Updates -/

theorem find?_update (t : Table ρ κ key) (f : ρ → ρ) (hf : ∀ r, key (f r) = key r) (k : κ) :
    (t.update f hf).find? k = (t.find? k).map f := by
  obtain ⟨l, hl⟩ := t
  simp only [update, find?]
  clear hl
  induction l with
  | nil => rfl
  | cons a l ih =>
    simp only [List.map_cons, List.find?_cons, hf]
    split <;> simp_all

end Table

/-- Rows with a primary key the database generates: `next` is the next value
it hands out, and no row has a later one. A bean not yet inserted has no key,
hence the `Option`. -/
structure Serial (ρ : Type) (id : ρ → Option Int) where
  rows : List ρ
  next : Int
  unique : (rows.map id).Nodup
  below : ∀ r ∈ rows, ∃ n < next, id r = some n

namespace Serial

variable {ρ : Type} {id : ρ → Option Int}

/-- An insert: the row is made with the generated key. -/
def insert (t : Serial ρ id) (mk : Int → ρ) (h : ∀ n, id (mk n) = some n) : Serial ρ id where
  rows := t.rows ++ [mk t.next]
  next := t.next + 1
  unique := by
    rw [List.map_append, List.map_singleton, ← List.concat_eq_append, List.nodup_concat]
    refine ⟨?_, t.unique⟩
    intro hm
    obtain ⟨r, hr, he⟩ := List.mem_map.1 hm
    obtain ⟨n, hn, hid⟩ := t.below r hr
    rw [hid, h, Option.some.injEq] at he
    omega
  below := fun r hr => by
    rcases List.mem_append.1 hr with hr | hr
    · obtain ⟨n, hn, hid⟩ := t.below r hr
      exact ⟨n, by omega, hid⟩
    · rw [List.mem_singleton] at hr
      exact ⟨t.next, by omega, hr ▸ h _⟩

@[simp] theorem rows_insert (t : Serial ρ id) (mk : Int → ρ) (h : ∀ n, id (mk n) = some n) :
    (t.insert mk h).rows = t.rows ++ [mk t.next] := rfl

end Serial
