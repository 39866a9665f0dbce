/-
Text of SQL statements, as MySQL reads it: string literals and `LIKE`.

A statement that is put together from text is what it was meant to be only if
the lexer finds the same literals in it. `lex` keeps everything outside of
literals character by character, which is enough to see that.
-/
import Mathlib.Data.List.Infix
import Mathlib.Tactic.Common

namespace Sql

/-- A character of a statement, or a string literal with what it stands for. -/
inductive Token
  | char (c : Char)
  | literal (s : List Char)
  deriving DecidableEq

/-- A token without what the literal stands for. -/
def Token.shape : Token → Option Char
  | char c => some c
  | literal _ => none

/-- What the literals stand for, in order. -/
def literals (ts : List Token) : List (List Char) :=
  ts.filterMap fun
    | .char _ => none
    | .literal s => some s

/-- What a backslash and `c` stand for in a literal. `LIKE` still wants to see `\%` and `\_`. -/
def unescape : Char → List Char
  | '%' => ['\\', '%']
  | '_' => ['\\', '_']
  | '0' => ['\x00']
  | 'b' => ['\x08']
  | 'n' => ['\n']
  | 'r' => ['\r']
  | 't' => ['\t']
  | 'Z' => ['\x1a']
  | c => [c]

mutual

/-- The tokens of a text, `none` if a literal is left open. -/
def lex : List Char → Option (List Token)
  | [] => some []
  | '\'' :: t => (lexLiteral t).map fun r => .literal r.1 :: r.2
  | c :: t => (lex t).map (.char c :: ·)

/-- The rest of a literal, and the tokens after it. -/
def lexLiteral : List Char → Option (List Char × List Token)
  | [] => none
  | '\'' :: '\'' :: t => (lexLiteral t).map fun r => ('\'' :: r.1, r.2)
  | '\'' :: t => (lex t).map fun ts => ([], ts)
  | '\\' :: c :: t => (lexLiteral t).map fun r => (unescape c ++ r.1, r.2)
  | c :: t => (lexLiteral t).map fun r => (c :: r.1, r.2)

end

/-- `value LIKE pattern`. A backslash at the very end stands for itself. -/
def like : List Char → List Char → Bool
  | [], v => v.isEmpty
  | '%' :: p, v => v.tails.any (like p)
  | '_' :: p, v => match v with
    | [] => false
    | _ :: v => like p v
  | '\\' :: c :: p, v => match v with
    | [] => false
    | d :: v => decide (c = d) && like p v
  | c :: p, v => match v with
    | [] => false
    | d :: v => decide (c = d) && like p v

/-! ## The lexer -/

@[simp] theorem literals_append (ts ts' : List Token) :
    literals (ts ++ ts') = literals ts ++ literals ts' := List.filterMap_append

@[simp] theorem literals_text (s : List Char) : literals (s.map .char) = [] := by
  simp [literals]

theorem lex_char {c : Char} (h : c ≠ '\'') (t : List Char) :
    lex (c :: t) = (lex t).map (.char c :: ·) := by
  rw [lex]
  exact h

theorem lexLiteral_quote {t : List Char} (h : ∀ t', t ≠ '\'' :: t') :
    lexLiteral ('\'' :: t) = (lex t).map fun ts => ([], ts) := by
  rw [lexLiteral]
  exact h

theorem lexLiteral_char {c : Char} (h : c ≠ '\'') (h' : c ≠ '\\') (t : List Char) :
    lexLiteral (c :: t) = (lexLiteral t).map fun r => (c :: r.1, r.2) := by
  rw [lexLiteral]
  · exact fun _ hc => absurd hc h
  · exact h
  · exact fun _ _ hc => absurd hc h'

/-- Text without a quote is no literal. -/
theorem lex_text {s : List Char} (h : '\'' ∉ s) (t : List Char) :
    lex (s ++ t) = (lex t).map (s.map .char ++ ·) := by
  induction s with
  | nil => simp
  | cons c s ih =>
    rw [List.mem_cons, not_or] at h
    rw [List.cons_append, lex_char (Ne.symm h.1), ih h.2, Option.map_map]
    rfl

/-- A character that stands for itself, in a literal and in a pattern. -/
def Plain (c : Char) : Prop := c ≠ '\'' ∧ c ≠ '\\' ∧ c ≠ '%' ∧ c ≠ '_'

instance (c : Char) : Decidable (Plain c) :=
  inferInstanceAs (Decidable (c ≠ '\'' ∧ c ≠ '\\' ∧ c ≠ '%' ∧ c ≠ '_'))

theorem lexLiteral_plain {s : List Char} (h : ∀ c ∈ s, Plain c) (t : List Char) :
    lexLiteral (s ++ t) = (lexLiteral t).map fun r => (s ++ r.1, r.2) := by
  induction s with
  | nil => simp
  | cons c s ih =>
    rw [List.forall_mem_cons] at h
    rw [List.cons_append, lexLiteral_char h.1.1 h.1.2.1, ih h.2, Option.map_map]
    rfl

/-! ## Patterns -/

theorem like_percent {p v : List Char} : like ('%' :: p) v = true ↔ ∃ w, w <:+ v ∧ like p w = true := by
  simp [like]

theorem like_plain_cons {c : Char} (h : Plain c) (p v : List Char) :
    like (c :: p) v = true ↔ ∃ w, v = c :: w ∧ like p w = true := by
  cases v with
  | nil =>
    rw [like]
    · simp
    · exact h.2.2.1
    · exact h.2.2.2
    · exact fun _ _ hc => absurd hc h.2.1
  | cons d w =>
    rw [like]
    · simp only [Bool.and_eq_true, decide_eq_true_eq, List.cons.injEq]
      constructor
      · intro hx
        obtain ⟨rfl, hw⟩ := hx
        exact ⟨w, ⟨rfl, rfl⟩, hw⟩
      · intro hx
        obtain ⟨w', ⟨rfl, rfl⟩, hw⟩ := hx
        exact ⟨rfl, hw⟩
    · exact h.2.2.1
    · exact h.2.2.2
    · exact fun _ _ hc => absurd hc h.2.1

theorem like_plain {s : List Char} (h : ∀ c ∈ s, Plain c) (p v : List Char) :
    like (s ++ p) v = true ↔ ∃ w, v = s ++ w ∧ like p w = true := by
  induction s generalizing v with
  | nil => simp
  | cons c s ih =>
    rw [List.forall_mem_cons] at h
    rw [List.cons_append, like_plain_cons h.1]
    constructor
    · intro hx
      obtain ⟨w, rfl, hw⟩ := hx
      obtain ⟨w', rfl, hw'⟩ := (ih h.2 w).1 hw
      exact ⟨w', rfl, hw'⟩
    · intro hx
      obtain ⟨w, rfl, hw⟩ := hx
      exact ⟨s ++ w, rfl, (ih h.2 _).2 ⟨w, rfl, hw⟩⟩

theorem like_percent_nil (v : List Char) : like ['%'] v = true :=
  like_percent.2 ⟨[], List.nil_suffix, rfl⟩

/-- `'%s%'` is for the values that contain `s`. -/
theorem like_contains {s : List Char} (h : ∀ c ∈ s, Plain c) (v : List Char) :
    like ('%' :: (s ++ ['%'])) v = true ↔ s <:+: v := by
  rw [like_percent]
  constructor
  · intro hx
    obtain ⟨w, ⟨u, rfl⟩, hw⟩ := hx
    obtain ⟨w', rfl, -⟩ := (like_plain h _ _).1 hw
    exact ⟨u, w', by rw [List.append_assoc]⟩
  · intro hx
    obtain ⟨u, w, rfl⟩ := hx
    exact ⟨s ++ w, ⟨u, by rw [List.append_assoc]⟩, (like_plain h _ _).2 ⟨w, rfl, like_percent_nil w⟩⟩

/-- A value that is no longer than a pattern makes it. -/
def shortest : List Char → List Char
  | [] => []
  | '%' :: p => shortest p
  | '_' :: p => 'a' :: shortest p
  | '\\' :: c :: p => c :: shortest p
  | c :: p => c :: shortest p

theorem like_shortest (p : List Char) : like p (shortest p) = true := by
  induction p using shortest.induct with
  | case1 => rfl
  | case2 p ih => exact like_percent.2 ⟨shortest p, List.suffix_rfl, ih⟩
  | case3 p ih =>
    rw [shortest, like]
    exact ih
  | case4 c p ih =>
    rw [shortest, like]
    simp [ih]
  | case5 c p h h' h'' ih =>
    rw [shortest, like]
    · simp [ih]
    all_goals assumption

theorem shortest_escape (c : Char) (p : List Char) : shortest ('\\' :: c :: p) = c :: shortest p := by
  rw [shortest]

theorem shortest_char {c : Char} (h : c ≠ '%') (h' : c ≠ '_') (h'' : c ≠ '\\') (p : List Char) :
    shortest (c :: p) = c :: shortest p := by
  rw [shortest]
  · exact h
  · exact h'
  · exact fun _ _ hc => absurd hc h''

theorem length_shortest_cons {c : Char} (h : c ≠ '\\') (p : List Char) :
    (shortest (c :: p)).length ≤ (shortest p).length + 1 := by
  by_cases hp : c = '%'
  · subst hp
    exact Nat.le_succ _
  · by_cases hu : c = '_'
    · subst hu
      exact Nat.le_refl _
    · rw [shortest_char hp hu h]
      exact Nat.le_refl _

/-- What an escape in a literal gives is no escape in the pattern, unless it is meant to be. -/
theorem unescape_cases (c : Char) :
    c = '%' ∧ unescape c = ['\\', '%'] ∨ c = '_' ∧ unescape c = ['\\', '_'] ∨
      c = '\\' ∧ unescape c = ['\\'] ∨
      ∃ d, unescape c = [d] ∧ d ≠ '%' ∧ d ≠ '_' ∧ d ≠ '\\' := by
  unfold unescape
  split
  · exact .inl ⟨rfl, rfl⟩
  · exact .inr (.inl ⟨rfl, rfl⟩)
  iterate 6 exact .inr (.inr (.inr ⟨_, rfl, by decide, by decide, by decide⟩))
  · next _ h h' _ _ _ _ _ _ =>
    by_cases hc : c = '\\'
    · exact .inr (.inr (.inl ⟨hc, by rw [hc]⟩))
    · exact .inr (.inr (.inr ⟨c, rfl, h, h', hc⟩))

/-- What the first character of a literal can be. -/
theorem lexLiteral_cons_cases {c : Char} {t p : List Char} {ts : List Token}
    (h : lexLiteral (c :: t) = some (p, ts)) :
    (c = '\'' ∧ (p = [] ∨ ∃ t' p', t = '\'' :: t' ∧ lexLiteral t' = some (p', ts) ∧ p = '\'' :: p')) ∨
    (c = '\\' ∧ ∃ d t' p', t = d :: t' ∧ lexLiteral t' = some (p', ts) ∧ p = unescape d ++ p') ∨
    (c ≠ '\'' ∧ c ≠ '\\' ∧ ∃ p', lexLiteral t = some (p', ts) ∧ p = c :: p') := by
  by_cases hq : c = '\''
  · subst hq
    refine .inl ⟨rfl, ?_⟩
    by_cases ht : ∃ t', t = '\'' :: t'
    · obtain ⟨t', rfl⟩ := ht
      rw [lexLiteral, Option.map_eq_some_iff] at h
      obtain ⟨r, hr, he⟩ := h
      cases he
      exact .inr ⟨t', r.1, rfl, hr, rfl⟩
    · rw [lexLiteral_quote (not_exists.1 ht), Option.map_eq_some_iff] at h
      obtain ⟨r, hr, he⟩ := h
      cases he
      exact .inl rfl
  · by_cases hb : c = '\\'
    · subst hb
      cases t with
      | nil => cases h
      | cons d t' =>
        rw [lexLiteral, Option.map_eq_some_iff] at h
        obtain ⟨r, hr, he⟩ := h
        cases he
        exact .inr (.inl ⟨rfl, d, t', r.1, rfl, hr, rfl⟩)
    · rw [lexLiteral_char hq hb, Option.map_eq_some_iff] at h
      obtain ⟨r, hr, he⟩ := h
      cases he
      exact .inr (.inr ⟨hq, hb, r.1, hr, rfl⟩)

/-- Two characters give one. -/
theorem length_shortest_unescape (d : Char) (p : List Char) :
    ((shortest (unescape d ++ p)).length ≤ (shortest p).length + 1 ∨
      (shortest (unescape d ++ p)).length = (shortest ('\\' :: p)).length) ∧
    (shortest ('\\' :: (unescape d ++ p))).length ≤ (shortest p).length + 2 := by
  obtain ⟨-, he⟩ | ⟨-, he⟩ | ⟨-, he⟩ | ⟨e, he, hp, hu, hb⟩ := unescape_cases d
  · rw [he]
    simp [shortest]
  · rw [he]
    simp [shortest]
  · rw [he]
    simp [shortest]
  · rw [he, List.singleton_append, shortest_escape, shortest_char hp hu hb]
    simp

section

variable {s rest p : List Char} {ts : List Token}

/-- A literal up to its last percent sign. -/
theorem lexLiteral_percent (hrest : ∀ t, rest ≠ '\'' :: t)
    (h : lexLiteral ('%' :: '\'' :: rest) = some (p, ts)) : p = ['%'] := by
  rw [lexLiteral_char (by decide) (by decide), lexLiteral_quote hrest, Option.map_map,
    Option.map_eq_some_iff] at h
  obtain ⟨ts', -, he⟩ := h
  cases he
  rfl

theorem lexLiteral_end (hrest : ∀ t, rest ≠ '\'' :: t)
    (h : lexLiteral ('\'' :: rest) = some (p, ts)) : p = [] := by
  rw [lexLiteral_quote hrest, Option.map_eq_some_iff] at h
  obtain ⟨ts', -, he⟩ := h
  cases he
  rfl

/-- The last percent sign of a literal is a wildcard or, after a backslash, the one character the
two stand for. A literal that ends earlier has even less to match. -/
theorem length_shortest_le (hrest : ∀ t, rest ≠ '\'' :: t)
    (h : lexLiteral (s ++ '%' :: '\'' :: rest) = some (p, ts)) :
    (shortest p).length ≤ s.length ∧ (shortest ('\\' :: p)).length ≤ s.length + 1 := by
  -- The lexer takes one character or two, so the induction is on the length.
  induction hn : s.length using Nat.strongRecOn generalizing s p with
  | ind n ih =>
    cases s with
    | nil =>
      rw [lexLiteral_percent hrest h]
      exact ⟨Nat.zero_le _, by simp [shortest]⟩
    | cons c s =>
      rw [List.length_cons] at hn
      obtain ⟨rfl, rfl | ⟨t', p', ht, hp, rfl⟩⟩ | ⟨rfl, d, t', p', ht, hp, rfl⟩ | ⟨-, hb, p', hp, rfl⟩ :=
        lexLiteral_cons_cases h
      · exact ⟨Nat.zero_le _, by simp [shortest]⟩
      · cases s with
        | nil => cases ht
        | cons q s =>
          cases ht
          rw [List.length_cons] at hn
          have hle := ih s.length (by omega) hp rfl
          have hcons := length_shortest_cons (c := '\'') (by decide) p'
          rw [shortest_escape, List.length_cons]
          omega
      · cases s with
        | nil =>
          cases ht
          rw [lexLiteral_end hrest hp]
          subst hn
          exact ⟨by decide, by decide⟩
        | cons d s =>
          cases ht
          rw [List.length_cons] at hn
          have hle := ih s.length (by omega) hp rfl
          have hescaped := length_shortest_unescape d p'
          omega
      · have hle := ih s.length (by omega) hp rfl
        have hcons := length_shortest_cons hb p'
        rw [shortest_escape, List.length_cons]
        omega

/-- Only plain text matches itself in as few characters: whatever else there is in it, the
shortest value is another one. -/
theorem plain_of_shortest (hrest : ∀ t, rest ≠ '\'' :: t)
    (h : lexLiteral (s ++ '%' :: '\'' :: rest) = some (p, ts)) (hs : shortest p = s) :
    ∀ c ∈ s, Plain c := by
  induction s generalizing p with
  | nil => simp
  | cons c s ih =>
    obtain ⟨rfl, rfl | ⟨t', p', ht, hp, rfl⟩⟩ | ⟨rfl, d, t', p', ht, hp, rfl⟩ | ⟨hq, hb, p', hp, rfl⟩ :=
      lexLiteral_cons_cases h
    · cases hs
    · exfalso
      cases s with
      | nil => cases ht
      | cons q s =>
        cases ht
        have hle := length_shortest_le hrest hp
        have hlen := congrArg List.length hs
        rw [shortest_char (by decide) (by decide) (by decide)] at hlen
        simp only [List.length_cons] at hlen
        omega
    · exfalso
      cases s with
      | nil =>
        cases ht
        rw [lexLiteral_end hrest hp] at hs
        revert hs
        decide
      | cons d s =>
        cases ht
        have hle := length_shortest_le hrest hp
        have hescaped := (length_shortest_unescape d p').1
        rw [hs] at hescaped
        simp only [List.length_cons] at hescaped
        omega
    · by_cases hpercent : c = '%'
      · subst hpercent
        have hle := length_shortest_le hrest hp
        rw [shortest] at hs
        rw [hs, List.length_cons] at hle
        omega
      · by_cases hunder : c = '_'
        · subst hunder
          rw [shortest] at hs
          cases hs
        · rw [shortest_char hpercent hunder hb, List.cons.injEq] at hs
          rw [List.forall_mem_cons]
          exact ⟨⟨hq, hb, hpercent, hunder⟩, ih hp hs.2⟩

/-- If every value that a literal `'%s%'` matches contains `s`, then `s` is plain. -/
theorem plain_of_like (hrest : ∀ t, rest ≠ '\'' :: t)
    (h : lexLiteral ('%' :: (s ++ '%' :: '\'' :: rest)) = some (p, ts))
    (hs : ∀ v, like p v = true → s <:+: v) : ∀ c ∈ s, Plain c := by
  rw [lexLiteral_char (by decide) (by decide), Option.map_eq_some_iff] at h
  obtain ⟨⟨p', ts'⟩, hp, he⟩ := h
  cases he
  have hcontains : s <:+: shortest p' := by
    have := hs _ (like_shortest ('%' :: p'))
    rwa [shortest] at this
  exact plain_of_shortest hrest hp (hcontains.eq_of_length_le (length_shortest_le hrest hp).1).symm

end

end Sql
