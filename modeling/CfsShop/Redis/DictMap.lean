/-
The dictionary is a finite map, whatever its tables do.

Of each operation only the effect on the entries is left, which is the map's;
so a run of the dictionary and the same run of the map give the same answers.
-/
import Mathlib.Data.Set.Card
import CfsShop.Redis.DictInvariant

namespace Redis

variable {κ ν : Type}

/-! ## The map -/

/-- What the operations mean for a map. `canResize` and everything below `empty` mean nothing. -/
noncomputable def mapStep [DecidableEq κ] (m : κ → Option ν) : DictOp κ ν → (κ → Option ν) × DictReply ν
  | .add key val =>
    if (m key).isNone then (Function.update m key (some val), .done true) else (m, .done false)
  | .replace key val => (Function.update m key (some val), .done (m key).isNone)
  | .fetchValue key => (m, .value (m key))
  | .delete key => (Function.update m key none, .done (m key).isSome)
  | .size => (m, .count (Set.ncard {key | m key ≠ none}))
  | .empty => (fun _ => none, .silent)
  | .resize | .expand _ | .rehash _ | .iterStart | .iterRelease => (m, .silent)

noncomputable def mapExec [DecidableEq κ] (s : (κ → Option ν) × List (DictReply ν)) (op : Bool × DictOp κ ν) :
    (κ → Option ν) × List (DictReply ν) :=
  let (m, reply) := mapStep s.1 op.2
  (m, s.2 ++ [reply])

/-- The dictionary holds what the map maps. -/
structure Represents (hash : κ → BitVec 64) (d : Dict κ ν) (m : κ → Option ν) : Prop where
  wf : d.Wf hash
  maps : ∀ key val, m key = some val ↔ (key, val) ∈ d.entries

variable {hash : κ → BitVec 64} {d d' : Dict κ ν} {m : κ → Option ν}

theorem Represents.same (h : Represents hash d m) (hs : Dict.Same hash d d') : Represents hash d' m :=
  ⟨hs.wf, fun key val => (h.maps key val).trans hs.perm.mem_iff⟩

theorem Represents.eq_none_iff (h : Represents hash d m) (key : κ) :
    m key = none ↔ ∀ e ∈ d.entries, e.1 ≠ key := by
  rw [Option.eq_none_iff_forall_ne_some]
  constructor
  · intro hnone e he hkey
    subst hkey
    exact hnone e.2 ((h.maps e.1 e.2).2 he)
  · intro hnot val hval
    exact hnot _ ((h.maps key val).1 hval) rfl

theorem Represents.insert [DecidableEq κ] (h : Represents hash d m) (hd' : d'.Wf hash) {key : κ} {val : ν}
    (hperm : ((key, val) :: d.entries).Perm d'.entries) (hfresh : ∀ e ∈ d.entries, e.1 ≠ key) :
    Represents hash d' (Function.update m key (some val)) := by
  refine ⟨hd', ?_⟩
  intro key' val'
  rw [← hperm.mem_iff, List.mem_cons, ← h.maps, Function.update_apply]
  split
  · next hkey =>
    subst hkey
    simp [(h.eq_none_iff key').2 hfresh, eq_comm]
  · next hkey => simp [hkey]

theorem Represents.setVal [DecidableEq κ] (h : Represents hash d m) {e : κ × ν} (he : e ∈ d.entries) (val : ν) :
    Represents hash (d.setVal (hash e.1) e.1 val) (Function.update m e.1 (some val)) := by
  obtain ⟨hwf, hentries⟩ := h.wf.setVal e.1 val
  refine ⟨hwf, ?_⟩
  intro key' val'
  rw [hentries, List.mem_map, Function.update_apply]
  split
  · next hkey =>
    subst hkey
    constructor
    · intro hval
      exact ⟨e, he, by rw [Dictht.withVal, if_pos rfl, Option.some.inj hval]⟩
    · intro hx
      obtain ⟨e', -, heq⟩ := hx
      have hfst : e'.1 = e.1 := by
        rw [← Dictht.withVal_fst e.1 val e', heq]
      rw [Dictht.withVal, if_pos hfst] at heq
      rw [(Prod.mk.inj heq).2]
  · next hkey =>
    rw [h.maps]
    constructor
    · intro hmem
      exact ⟨_, hmem, Dictht.withVal_of_ne hkey val⟩
    · intro hx
      obtain ⟨e', he', heq⟩ := hx
      have hfst : e'.1 = key' := by
        rw [← Dictht.withVal_fst e.1 val e', heq]
      rw [Dictht.withVal_of_ne (hfst ▸ hkey)] at heq
      exact heq ▸ he'

theorem Represents.erase [DecidableEq κ] (h : Represents hash d m) (hd' : d'.Wf hash) {e : κ × ν}
    (hperm : d.entries.Perm (e :: d'.entries)) : Represents hash d' (Function.update m e.1 none) := by
  refine ⟨hd', ?_⟩
  intro key' val'
  have hnodup := Dict.nodup_of_perm hperm h.wf.nodup
  rw [List.map_cons, List.nodup_cons] at hnodup
  rw [Function.update_apply]
  split
  · next hkey =>
    subst hkey
    constructor
    · exact fun hval => nomatch hval
    · intro hmem
      exact absurd (List.mem_map_of_mem hmem) hnodup.1
  · next hkey =>
    rw [h.maps, hperm.mem_iff, List.mem_cons]
    constructor
    · intro hmem
      exact hmem.resolve_left fun heq => hkey (by rw [← heq])
    · exact .inr

theorem Represents.size (h : Represents hash d m) : dictSize d = Set.ncard {key | m key ≠ none} := by
  classical
  have hset : {key | m key ≠ none} = ((d.entries.map (·.1)).toFinset : Set κ) := by
    ext key
    rw [Set.mem_ofPred_eq, ne_eq, h.eq_none_iff, List.coe_toFinset, Set.mem_ofPred_eq, List.mem_map]
    push Not
    rfl
  rw [hset, Set.ncard_coe_finset, List.toFinset_card_of_nodup h.wf.nodup, List.length_map, h.wf.size_eq]

theorem Represents.create : Represents hash (dictCreate : Dict κ ν) fun _ => none :=
  ⟨Dict.wf_create, fun _ _ => ⟨(fun hn => nomatch hn), fun hmem => absurd hmem List.not_mem_nil⟩⟩

/-- The number of safe iterators is nothing to the tables. -/
theorem Represents.iterators (h : Represents hash d m) (n : BitVec 64) :
    Represents hash { d with iterators := n } m := by
  refine ⟨⟨h.wf.ht0, h.wf.ht1, h.wf.nodup, h.wf.single, ?_⟩, h.maps⟩
  intro idx hi
  obtain ⟨hs0, hs1, hle, hempty⟩ := h.wf.rehashing idx hi
  exact ⟨hs0, hs1, hle, hempty⟩

section
variable [DecidableEq κ]

theorem Represents.of_fetch (h : Represents hash d m) (key : κ) :
    ∃ d', dictFetchValue hash d key = (d', m key) ∧ Dict.Same hash d d' := by
  by_cases hzero : dictSize d = 0
  · have hnil : d.entries = [] := List.eq_nil_of_length_eq_zero (h.wf.size_eq ▸ hzero)
    have hnone := (h.eq_none_iff key).2 (by simp [hnil])
    exact ⟨d, by simp [dictFetchValue, dictFind, hzero, hnone], h.wf.same⟩
  · have hstep := h.wf.stepIfRehashing
    have h' := h.same hstep
    refine ⟨_, ?_, hstep⟩
    simp only [dictFetchValue, dictFind, if_neg hzero]
    cases hl : (d.stepIfRehashing hash).lookup (hash key) key with
    | none => rw [(h'.eq_none_iff key).2 (h'.wf.not_mem_of_lookup hl), Option.map_none]
    | some e =>
      obtain ⟨he, rfl⟩ := h'.wf.of_lookup hl
      rw [(h'.maps e.1 e.2).2 he, Option.map_some]

theorem Dict.Wf.represents (h : d.Wf hash) :
    Represents hash d fun key => (d.lookup (hash key) key).map (·.2) := by
  refine ⟨h, ?_⟩
  intro key val
  rw [Option.map_eq_some_iff]
  constructor
  · intro hx
    obtain ⟨e, hl, rfl⟩ := hx
    obtain ⟨he, rfl⟩ := h.of_lookup hl
    exact he
  · intro hmem
    exact ⟨(key, val), h.lookup_eq_some.2 ⟨hmem, rfl⟩, rfl⟩

/-- One operation does to the dictionary what it means for the map, and answers the same. -/
theorem Represents.step (h : Represents hash d m) (hb : d.Bounded) (canResize : Bool) (op : DictOp κ ν) :
    Represents hash (dictStep hash d canResize op).1 (mapStep m op).1 ∧
      (dictStep hash d canResize op).2 = (mapStep m op).2 := by
  cases op with
  | add key val =>
    rcases h.wf.dictAddRaw hb canResize key val with
      ⟨d', heq, hwf, hperm, hfresh⟩ | ⟨d', e, heq, hsame, he, rfl⟩
    · have hnone := (h.eq_none_iff key).2 hfresh
      simp only [dictStep, dictAdd, heq, mapStep, hnone, Option.isNone_none, if_true]
      exact ⟨h.insert hwf hperm hfresh, rfl⟩
    · have hsome := (h.maps e.1 e.2).2 he
      simp only [dictStep, dictAdd, heq, mapStep, hsome, Option.isNone_some]
      exact ⟨h.same hsame, rfl⟩
  | replace key val =>
    rcases h.wf.dictAddRaw hb canResize key val with
      ⟨d', heq, hwf, hperm, hfresh⟩ | ⟨d', e, heq, hsame, he, rfl⟩
    · have hnone := (h.eq_none_iff key).2 hfresh
      simp only [dictStep, dictReplace, heq, mapStep, hnone]
      exact ⟨h.insert hwf hperm hfresh, rfl⟩
    · have hsome := (h.maps e.1 e.2).2 he
      simp only [dictStep, dictReplace, heq, mapStep, hsome]
      exact ⟨(h.same hsame).setVal (hsame.perm.mem_iff.1 he) val, rfl⟩
  | fetchValue key =>
    obtain ⟨d', heq, hsame⟩ := h.of_fetch key
    simp only [dictStep, heq, mapStep]
    exact ⟨h.same hsame, rfl⟩
  | delete key =>
    rcases h.wf.dictGenericDelete key with ⟨d', e, heq, hwf, hperm, rfl⟩ | ⟨d', heq, hsame, hnot⟩
    · have hsome := (h.maps e.1 e.2).2 (hperm.mem_iff.2 List.mem_cons_self)
      simp only [dictStep, dictDelete, heq, mapStep, hsome]
      exact ⟨h.erase hwf hperm, rfl⟩
    · have hnone := (h.eq_none_iff key).2 hnot
      have hself : Function.update m key none = m := by rw [← hnone, Function.update_eq_self]
      simp only [dictStep, dictDelete, heq, mapStep, hnone, hself]
      exact ⟨h.same hsame, rfl⟩
  | size => exact ⟨h, congrArg _ h.size⟩
  | empty => exact ⟨Represents.create, rfl⟩
  | resize =>
    have hsame := h.wf.getD_dictResize canResize
    exact ⟨h.same hsame, rfl⟩
  | expand size =>
    have hsame := h.wf.getD_dictExpand size
    exact ⟨h.same hsame, rfl⟩
  | rehash n =>
    have hsame := h.wf.dictRehash n
    exact ⟨h.same hsame, rfl⟩
  | iterStart => exact ⟨h.iterators _, rfl⟩
  | iterRelease => exact ⟨h.iterators _, rfl⟩

/-- An entry takes up 24 bytes, so that a dictionary in memory is always far below this. -/
def fits (s : Dict κ ν × List (DictReply ν)) (_ : Bool × DictOp κ ν) : Prop := dictSize s.1 < 2 ^ 62

omit [DecidableEq κ] in
instance (s : Dict κ ν × List (DictReply ν)) (op : Bool × DictOp κ ν) : Decidable (fits s op) :=
  inferInstanceAs (Decidable (dictSize s.1 < 2 ^ 62))

/-- The same of a run. -/
theorem Represents.run (ops : List (Bool × DictOp κ ν)) :
    ∀ {d : Dict κ ν} {m : κ → Option ν} {replies : List (DictReply ν)}, Represents hash d m →
      Run.Along (dictExec hash) fits (d, replies) ops →
      Represents hash (Run.run (dictExec hash) (d, replies) ops).1 (Run.run mapExec (m, replies) ops).1 ∧
        (Run.run (dictExec hash) (d, replies) ops).2 = (Run.run mapExec (m, replies) ops).2 := by
  induction ops with
  | nil => exact fun h _ => ⟨h, rfl⟩
  | cons op ops ih =>
    intro d m replies h hfits
    obtain ⟨hb, hfits⟩ := hfits
    have hb : d.Bounded := by
      rw [Dict.Bounded, ← h.wf.size_eq]
      exact hb
    obtain ⟨hrep, hreply⟩ := h.step hb op.1 op.2
    have hm : mapExec (m, replies) op =
        ((mapStep m op.2).1, replies ++ [(dictStep hash d op.1 op.2).2]) := by
      rw [hreply]
      rfl
    rw [Run.run_cons, Run.run_cons, hm]
    exact ih hrep hfits

/-- Whatever the server does to the tables in between, a dictionary answers as the map does. -/
theorem dict_refines_map (hash : κ → BitVec 64) (ops : List (Bool × DictOp κ ν))
    (hfits : Run.Along (dictExec hash) fits (dictCreate, []) ops) :
    (Run.run (dictExec hash) (dictCreate, []) ops).2 = (Run.run mapExec ((fun _ => none), []) ops).2 :=
  (Represents.create.run ops hfits).2

/-- The fifth key finds the table of four full, and the read that follows moves a bucket. -/
theorem dict_refines_map_five :
    (Run.run (dictExec (BitVec.ofNat 64)) (dictCreate, [])
      ((List.range 5).map (fun i => (true, DictOp.add i (i * i))) ++ [(true, DictOp.fetchValue 3)])).2 =
    (Run.run mapExec ((fun _ => none), [])
      ((List.range 5).map (fun i => (true, DictOp.add i (i * i))) ++ [(true, DictOp.fetchValue 3)])).2 :=
  dict_refines_map _ _ (by decide)

end

end Redis
