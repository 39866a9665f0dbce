/-
Glob-style patterns (stringmatchlen in util.c), as KEYS and SCAN take them.

`Glob` says what a pattern means, `stringmatchlen` is what the server does:
a loop that stops as soon as the string is used up, and does not look for the
end of the string before. On a string that is not empty the two agree
(`stringmatchlen_iff`). On the empty one the loop takes the terminator for a
character, and goes on behind it.

The pattern is an sds too: where the loop looks at `pattern[patternLen]` it
finds the terminator, which is none of the characters it looks for.
-/
import Mathlib.Data.List.Basic
import Mathlib.Data.List.Infix
import Mathlib.Tactic.Common

namespace Redis

/-! ## Characters -/

/-- A `char` as the `int` it is compared as. It is signed. -/
def schar (c : Char) : Int := if c.toNat < 128 then c.toNat else c.toNat - 256

/-- `tolower` in the C locale. C says nothing of negative codes; the C library of the server gives
the unsigned ones, and -1 for -1, which is `EOF`. -/
def tolower (c : Int) : Int :=
  if 65 ≤ c ∧ c ≤ 90 then c + 32
  else if -128 ≤ c ∧ c < -1 then c + 256
  else c

/-- Literals. -/
def sameChar (nocase : Bool) (x c : Char) : Bool :=
  if nocase then tolower (schar x) == tolower (schar c) else x == c

/-- A range, its ends in either order. They are put in order before case is folded. -/
def inRange (nocase : Bool) (lo hi c : Char) : Bool :=
  let (start, last) := if schar hi < schar lo then (schar hi, schar lo) else (schar lo, schar hi)
  if nocase then tolower start ≤ tolower (schar c) && tolower (schar c) ≤ tolower last
  else start ≤ schar c && schar c ≤ last

/-! ## Matching -/

/-- The loop over a class: whether `c` is in it, and the pattern after it. A class that is not
closed ends with the pattern. -/
def matchClass (nocase : Bool) (c : Char) : List Char → Bool → Bool × List Char
  | [], found => (found, [])
  | '\\' :: x :: p, found => matchClass nocase c p (found || x == c)
  | ']' :: p, found => (found, p)
  | lo :: '-' :: hi :: p, found => matchClass nocase c p (found || inRange nocase lo hi c)
  | x :: p, found => matchClass nocase c p (found || sameChar nocase x c)

def dropStars (p : List Char) : List Char := p.dropWhile (· = '*')

/-- `while(stringLen)`: the string from each of its characters on, until one matches. -/
def anySuffix (f : List Char → Option Bool) : List Char → Option Bool
  | [] => some false
  | c :: s =>
    match f (c :: s) with
    | some false => anySuffix f s
    | r => r

/-- The terminator of the string. -/
def NUL : Char := Char.ofNat 0

/-- The loop once it is behind the terminator of the string, with a `stringLen` below 0. It goes on
while the pattern does not ask for a character. `none` when it does, and what is read then is not of
the string; and when it counts `stringLen` down and down. -/
def matchBehind : List Char → Option Bool
  | [] => some false
  | ['*'] => some true
  | '*' :: p => if matchBehind p = some true then some true else none
  | '?' :: p => matchBehind p
  | ['['] | '[' :: ']' :: _ => some false
  | ['[', '^'] => some false
  | '[' :: '^' :: ']' :: p => matchBehind p
  | _ => none

/-- `none` when the string is read behind its terminator. Every turn uses up some of the pattern. -/
def matchLoop (nocase : Bool) : (fuel : Nat) → (pattern string : List Char) → Option Bool
  | 0, _, _ => none
  | _ + 1, [], s => some s.isEmpty
  | fuel + 1, p0 :: p, s =>
    -- A character of the string is used up, and the loop goes on if there are more.
    let used (p : List Char) : Option Bool :=
      match s with
      | [] => matchBehind p
      | [_] => some (dropStars p).isEmpty
      | _ :: s => matchLoop nocase fuel p s
    let literal (x : Char) (p : List Char) : Option Bool :=
      if sameChar nocase x (s.headD NUL) then used p else some false
    if p0 = '*' then
      let p := dropStars p
      if p.isEmpty then some true else anySuffix (matchLoop nocase fuel p) s
    else if p0 = '?' then
      if s.isEmpty then some false else used p
    else if p0 = '[' then
      let negated := p.head? = some '^'
      let (found, p) := matchClass nocase (s.headD NUL) (if negated then p.tail else p) false
      if found != negated then used p else some false
    else if p0 = '\\' then
      match p with
      | x :: p => literal x p
      | [] => literal '\\' []
    else literal p0 p

def stringmatchlen (pattern string : List Char) (nocase : Bool) : Option Bool :=
  matchLoop nocase (pattern.length + 1) pattern string

/-! ## What a pattern means -/

/-- What stands between the brackets. -/
inductive ClassItem
  | char (x : Char)
  | escaped (x : Char)
  | range (lo hi : Char)

def ClassItem.has (nocase : Bool) (c : Char) : ClassItem → Bool
  | .char x => sameChar nocase x c
  | .escaped x => x == c
  | .range lo hi => inRange nocase lo hi c

/-- The items of a class, and the pattern after it. -/
def parseClass : List Char → List ClassItem × List Char
  | [] => ([], [])
  | '\\' :: x :: p => ((parseClass p).1.cons (.escaped x), (parseClass p).2)
  | ']' :: p => ([], p)
  | lo :: '-' :: hi :: p => ((parseClass p).1.cons (.range lo hi), (parseClass p).2)
  | x :: p => ((parseClass p).1.cons (.char x), (parseClass p).2)

/-- `c` is in the class that `p` starts with. -/
def InClass (nocase : Bool) (p : List Char) (c : Char) : Prop :=
  ∃ i ∈ (parseClass p).1, i.has nocase c = true

/-- The strings of a pattern. -/
inductive Glob (nocase : Bool) : List Char → List Char → Prop
  | done : Glob nocase [] []
  | star {p u s} : Glob nocase p s → Glob nocase ('*' :: p) (u ++ s)
  | any {p c s} : Glob nocase p s → Glob nocase ('?' :: p) (c :: s)
  | cls {p c s} : p.head? ≠ some '^' → InClass nocase p c → Glob nocase (parseClass p).2 s →
      Glob nocase ('[' :: p) (c :: s)
  | notCls {p c s} : ¬ InClass nocase p c → Glob nocase (parseClass p).2 s →
      Glob nocase ('[' :: '^' :: p) (c :: s)
  | escaped {x p c s} : sameChar nocase x c = true → Glob nocase p s →
      Glob nocase ('\\' :: x :: p) (c :: s)
  | backslash {c s} : sameChar nocase '\\' c = true → Glob nocase [] s →
      Glob nocase ['\\'] (c :: s)
  | literal {x p c s} : x ∉ ['*', '?', '[', '\\'] → sameChar nocase x c = true → Glob nocase p s →
      Glob nocase (x :: p) (c :: s)

variable {nocase : Bool} {p s : List Char} {c : Char}

theorem matchClass_eq (nocase : Bool) (c : Char) (p : List Char) (found : Bool) :
    matchClass nocase c p found = (found || (parseClass p).1.any (·.has nocase c), (parseClass p).2) := by
  induction p, found using matchClass.induct nocase c with
  | case1 found => simp [matchClass, parseClass]
  | case2 found x p ih => simp [matchClass, parseClass, ih, ClassItem.has, Bool.or_assoc]
  | case3 found p => simp [matchClass, parseClass]
  | case4 found lo hi p h1 h2 ih => simp [matchClass, parseClass, ih, ClassItem.has, Bool.or_assoc]
  | case5 found x p h1 h2 h3 ih => simp [matchClass, parseClass, ih, ClassItem.has, Bool.or_assoc]

theorem length_parseClass (p : List Char) : (parseClass p).2.length ≤ p.length := by
  induction p using parseClass.induct with
  | case1 => simp [parseClass]
  | case2 x p ih => simp only [parseClass, List.length_cons]; omega
  | case3 p => simp [parseClass]
  | case4 lo hi p h1 h2 ih => simp only [parseClass, List.length_cons]; omega
  | case5 x p h1 h2 h3 ih => simp only [parseClass, List.length_cons]; omega

/-! ### Stars -/

theorem glob_star : Glob nocase ('*' :: p) s ↔ ∃ s', s' <:+ s ∧ Glob nocase p s' := by
  constructor
  · intro h
    cases h with
    | star h => exact ⟨_, List.suffix_append _ _, h⟩
    | literal hx => exact absurd (List.mem_cons_self) hx
  · intro hx
    obtain ⟨s', ⟨u, rfl⟩, h⟩ := hx
    exact .star h

theorem glob_star_star : Glob nocase ('*' :: '*' :: p) s ↔ Glob nocase ('*' :: p) s := by
  rw [glob_star]
  constructor
  · intro hx
    obtain ⟨s', hs', h⟩ := hx
    obtain ⟨s'', hs'', h⟩ := glob_star.1 h
    exact glob_star.2 ⟨s'', hs''.trans hs', h⟩
  · exact fun h => ⟨s, List.suffix_refl s, h⟩

theorem dropStars_cons (x : Char) (p : List Char) :
    dropStars (x :: p) = if x = '*' then dropStars p else x :: p := by
  rw [dropStars, List.dropWhile_cons]
  simp only [decide_eq_true_eq]
  rfl

theorem length_dropStars (p : List Char) : (dropStars p).length ≤ p.length :=
  (List.dropWhile_suffix _).length_le

theorem glob_dropStars (p s : List Char) :
    Glob nocase ('*' :: dropStars p) s ↔ Glob nocase ('*' :: p) s := by
  induction p with
  | nil => rfl
  | cons x p ih =>
    rw [dropStars_cons]
    split
    · next hx =>
      subst hx
      rw [ih, glob_star_star]
    · rfl

/-- Only stars match the empty string. -/
theorem glob_nil : Glob nocase p [] ↔ dropStars p = [] := by
  induction p with
  | nil => exact iff_of_true .done rfl
  | cons x p ih =>
    rw [dropStars_cons]
    split
    · next hx =>
      subst hx
      rw [glob_star, ← ih]
      constructor
      · intro hx
        obtain ⟨s', hs', h⟩ := hx
        rwa [List.suffix_nil.1 hs'] at h
      · exact fun h => ⟨[], List.suffix_refl [], h⟩
    · next hx =>
      constructor
      · intro h
        generalize hs : ([] : List Char) = s at h
        cases h with
        | star => exact absurd rfl hx
        | _ => exact nomatch hs
      · exact fun h => nomatch h

/-- After the collapsed stars something is left that is no star, so the empty rest cannot match. -/
theorem head_dropStars (p : List Char) : (dropStars p).head? ≠ some '*' := by
  induction p with
  | nil => simp [dropStars]
  | cons x p ih =>
    rw [dropStars_cons]
    split
    · exact ih
    · next hx => simpa using hx

theorem dropStars_dropStars (p : List Char) : dropStars (dropStars p) = dropStars p := by
  have hhead := head_dropStars p
  generalize dropStars p = q at hhead
  cases q with
  | nil => rfl
  | cons x q =>
    rw [dropStars_cons, if_neg]
    simpa using hhead

theorem anySuffix_iff {f : List Char → Option Bool} (hf : ∀ s, s ≠ [] → f s ≠ none) (s : List Char) :
    anySuffix f s ≠ none ∧ (anySuffix f s = some true ↔ ∃ s', s' <:+ s ∧ s' ≠ [] ∧ f s' = some true) := by
  induction s with
  | nil =>
    refine ⟨Option.some_ne_none _, ?_⟩
    simp [anySuffix]
  | cons c s ih =>
    obtain ⟨hne, hiff⟩ := ih
    have hsuffix : (∃ s', s' <:+ c :: s ∧ s' ≠ [] ∧ f s' = some true) ↔
        f (c :: s) = some true ∨ ∃ s', s' <:+ s ∧ s' ≠ [] ∧ f s' = some true := by
      constructor
      · intro hx
        obtain ⟨s', hs', hne', h⟩ := hx
        rcases List.suffix_cons_iff.1 hs' with rfl | hs'
        · exact .inl h
        · exact .inr ⟨s', hs', hne', h⟩
      · intro hx
        rcases hx with h | ⟨s', hs', hne', h⟩
        · exact ⟨c :: s, List.suffix_refl _, List.cons_ne_nil _ _, h⟩
        · exact ⟨s', hs'.trans (List.suffix_cons c s), hne', h⟩
    rw [hsuffix, anySuffix]
    have hdef := hf (c :: s) (List.cons_ne_nil _ _)
    cases h : f (c :: s) with
    | none => exact absurd h hdef
    | some b =>
      cases b with
      | true => exact ⟨Option.some_ne_none _, by simp⟩
      | false => exact ⟨hne, by simpa using hiff⟩

/-! ### One character -/

theorem glob_any : Glob nocase ('?' :: p) (c :: s) ↔ Glob nocase p s := by
  constructor
  · intro h
    cases h with
    | any h => exact h
    | literal hx => simp at hx
  · exact .any

theorem glob_cls (hp : p.head? ≠ some '^') :
    Glob nocase ('[' :: p) (c :: s) ↔ InClass nocase p c ∧ Glob nocase (parseClass p).2 s := by
  constructor
  · intro h
    cases h with
    | cls _ hin h => exact ⟨hin, h⟩
    | notCls => exact absurd rfl hp
    | literal hx => simp at hx
  · exact fun h => .cls hp h.1 h.2

theorem glob_notCls :
    Glob nocase ('[' :: '^' :: p) (c :: s) ↔ ¬ InClass nocase p c ∧ Glob nocase (parseClass p).2 s := by
  constructor
  · intro h
    cases h with
    | cls hp => exact absurd rfl hp
    | notCls hin h => exact ⟨hin, h⟩
    | literal hx => simp at hx
  · exact fun h => .notCls h.1 h.2

theorem glob_escaped {x : Char} :
    Glob nocase ('\\' :: x :: p) (c :: s) ↔ sameChar nocase x c = true ∧ Glob nocase p s := by
  constructor
  · intro h
    cases h with
    | escaped hc h => exact ⟨hc, h⟩
    | literal hx => simp at hx
  · exact fun h => .escaped h.1 h.2

theorem glob_backslash :
    Glob nocase ['\\'] (c :: s) ↔ sameChar nocase '\\' c = true ∧ Glob nocase [] s := by
  constructor
  · intro h
    cases h with
    | backslash hc h => exact ⟨hc, h⟩
    | literal hx => simp at hx
  · exact fun h => .backslash h.1 h.2

theorem glob_literal {x : Char} (hx : x ∉ ['*', '?', '[', '\\']) :
    Glob nocase (x :: p) (c :: s) ↔ sameChar nocase x c = true ∧ Glob nocase p s := by
  constructor
  · intro h
    generalize hp : x :: p = q at h
    generalize hs : c :: s = t at h
    cases h with
    | literal _ hc h =>
      obtain ⟨rfl, rfl⟩ := List.cons.inj hp
      obtain ⟨rfl, rfl⟩ := List.cons.inj hs
      exact ⟨hc, h⟩
    | done => exact nomatch hp
    | star | any | cls | notCls | escaped | backslash =>
      exact absurd (List.cons.inj hp).1 (by rintro rfl; simp at hx)
  · exact fun h => .literal hx h.1 h.2

theorem any_has_iff : (parseClass p).1.any (·.has nocase c) = true ↔ InClass nocase p c :=
  List.any_eq_true

/-! ### The loop -/

/-- What the server answers is defined, and it is what the pattern means. -/
def Decides (r : Option Bool) (P : Prop) : Prop := r ≠ none ∧ (r = some true ↔ P)

theorem Decides.of_not {P : Prop} (h : ¬ P) : Decides (some false) P :=
  ⟨Option.some_ne_none _, by simp [h]⟩

/-- A character of the string is used up. -/
theorem decides_used {fuel : Nat} (ih : ∀ s, s ≠ [] → Decides (matchLoop nocase fuel p s) (Glob nocase p s)) :
    Decides (match s with
      | [] => some (dropStars p).isEmpty
      | _ :: _ => matchLoop nocase fuel p s) (Glob nocase p s) := by
  cases s with
  | nil =>
    refine ⟨Option.some_ne_none _, ?_⟩
    rw [glob_nil, Option.some.injEq, List.isEmpty_iff]
  | cons c s => exact ih _ (List.cons_ne_nil _ _)

theorem matchLoop_iff (nocase : Bool) (fuel : Nat) : ∀ {p s : List Char}, p.length < fuel → s ≠ [] →
    Decides (matchLoop nocase fuel p s) (Glob nocase p s) := by
  induction fuel with
  | zero => exact fun h => absurd h (Nat.not_lt_zero _)
  | succ fuel ih =>
    intro p s hp hs
    obtain ⟨c, s, rfl⟩ := List.exists_cons_of_ne_nil hs
    cases p with
    | nil =>
      refine Decides.of_not ?_
      intro h
      cases h
    | cons p0 p =>
      have hlen : p.length < fuel := Nat.lt_of_succ_lt_succ hp
      have hused : ∀ {p' : List Char}, p'.length ≤ p.length →
          Decides (match c :: s with
            | [] => matchBehind p'
            | [_] => some (dropStars p').isEmpty
            | _ :: s => matchLoop nocase fuel p' s) (Glob nocase p' s) := by
        intro p' hp'
        have h := decides_used (s := s) fun s hs => ih (show p'.length < fuel by omega) hs
        cases s with
        | nil => exact h
        | cons _ _ => exact h
      have hliteral : ∀ {x : Char} {p' : List Char}, p'.length ≤ p.length →
          Decides (if sameChar nocase x c then
            match c :: s with
            | [] => matchBehind p'
            | [_] => some (dropStars p').isEmpty
            | _ :: s => matchLoop nocase fuel p' s
          else some false) (sameChar nocase x c = true ∧ Glob nocase p' s) := by
        intro x p' hp'
        split
        · next hx =>
          rw [and_iff_right hx]
          exact hused hp'
        · next hx => exact Decides.of_not fun h => hx h.1
      simp only [matchLoop, List.headD_cons]
      by_cases hstar : p0 = '*'
      · subst hstar
        rw [if_pos rfl, ← glob_dropStars]
        split
        · next hnil =>
          refine ⟨Option.some_ne_none _, iff_of_true rfl ?_⟩
          rw [List.isEmpty_iff.1 hnil]
          exact glob_star.2 ⟨[], List.nil_suffix, .done⟩
        · next hne =>
          have hshort := length_dropStars p
          have hloop := fun t ht => ih (p := dropStars p) (s := t) (by omega) ht
          obtain ⟨hdef, hiff⟩ := anySuffix_iff (fun t ht => (hloop t ht).1) (c :: s)
          refine ⟨hdef, ?_⟩
          rw [hiff, glob_star]
          refine exists_congr fun t => and_congr_right fun _ => ?_
          constructor
          · exact fun h => (hloop t h.1).2.1 h.2
          · intro h
            -- What is left of the pattern is no star, so it does not match the empty rest.
            have ht : t ≠ [] := by
              rintro rfl
              rw [glob_nil, dropStars_dropStars] at h
              exact hne (List.isEmpty_iff.2 h)
            exact ⟨ht, (hloop t ht).2.2 h⟩
      rw [if_neg hstar]
      by_cases hany : p0 = '?'
      · subst hany
        rw [if_pos rfl, List.isEmpty_cons, glob_any]
        exact hused (Nat.le_refl _)
      rw [if_neg hany]
      by_cases hcls : p0 = '['
      · subst hcls
        rw [if_pos rfl]
        by_cases hneg : p.head? = some '^'
        · obtain ⟨p, rfl⟩ : ∃ q, p = '^' :: q := List.head?_eq_some_iff.1 hneg
          have hshort : (parseClass p).2.length ≤ ('^' :: p).length :=
            Nat.le_succ_of_le (length_parseClass p)
          rw [glob_notCls, ← any_has_iff]
          simp only [matchClass_eq, List.head?_cons, if_true, List.tail_cons, Bool.false_or]
          cases (parseClass p).1.any (·.has nocase c) with
          | true => exact Decides.of_not (by simp)
          | false => simpa using hused hshort
        · have hshort := length_parseClass p
          rw [glob_cls hneg, ← any_has_iff]
          simp only [matchClass_eq, hneg, if_false, Bool.false_or, decide_false]
          cases (parseClass p).1.any (·.has nocase c) with
          | true => simpa using hused hshort
          | false => exact Decides.of_not (by simp)
      rw [if_neg hcls]
      by_cases hesc : p0 = '\\'
      · subst hesc
        rw [if_pos rfl]
        cases p with
        | nil =>
          rw [glob_backslash]
          exact hliteral (Nat.le_refl _)
        | cons x p =>
          rw [glob_escaped]
          exact hliteral (Nat.le_succ _)
      · rw [if_neg hesc, glob_literal (by simp [hstar, hany, hcls, hesc])]
        exact hliteral (Nat.le_refl _)

theorem decides_stringmatchlen (pattern : List Char) {string : List Char} (h : string ≠ []) :
    Decides (stringmatchlen pattern string nocase) (Glob nocase pattern string) :=
  matchLoop_iff nocase (pattern.length + 1) (Nat.lt_succ_self _) h

/-- On a string that is not empty the server answers what the pattern means. -/
theorem stringmatchlen_iff (pattern string : List Char) (nocase : Bool) (h : string ≠ []) :
    ∃ b, stringmatchlen pattern string nocase = some b ∧ (b = true ↔ Glob nocase pattern string) := by
  obtain ⟨hdef, hiff⟩ := decides_stringmatchlen pattern h
  obtain ⟨b, hb⟩ := Option.ne_none_iff_exists'.1 hdef
  rw [hb, Option.some.injEq] at hiff
  exact ⟨b, hb, hiff⟩

theorem stringmatchlen_iff_session :
    ∃ b, stringmatchlen "shiro:[a-z]*:?".toList "shiro:session:1".toList false = some b ∧
      (b = true ↔ Glob false "shiro:[a-z]*:?".toList "shiro:session:1".toList) :=
  stringmatchlen_iff _ _ false (by decide)

/-- The terminator of the empty string is no `a`, so the class takes it for a character. -/
example : stringmatchlen ['[', '^', 'a', ']', '*'] [] false = some true := by decide

/-- Plain characters and a star match what starts with the characters. -/
theorem glob_prefix {q : List Char} (hq : ∀ x ∈ q, x ∉ ['*', '?', '[', '\\']) :
    Glob false (q ++ ['*']) s ↔ q <+: s := by
  induction q generalizing s with
  | nil =>
    rw [List.nil_append, glob_star]
    exact iff_of_true ⟨[], List.nil_suffix, .done⟩ List.nil_prefix
  | cons x q ih =>
    rw [List.forall_mem_cons] at hq
    rw [List.cons_append]
    cases s with
    | nil =>
      have hx : x ≠ '*' := by
        rintro rfl
        simp at hq
      rw [glob_nil, dropStars_cons, if_neg hx]
      simp
    | cons c s =>
      rw [glob_literal hq.1, ih hq.2, List.cons_prefix_cons, sameChar, if_neg (by simp), beq_iff_eq]

end Redis
