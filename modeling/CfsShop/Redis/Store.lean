/-
The two dictionaries of a database as one store.

`Holds` says what the dictionaries hold and what is always true of it: only a
key that is there has a time to live, numbers fit, and times are not negative,
which is what `getExpire` means by -1. Each function below the commands is one
`put` or `erase` of the store, and none of their assertions fails.
-/
import CfsShop.Lib.Triple
import CfsShop.Redis.Db
import CfsShop.Redis.DictMap

namespace Redis

/-! ## The number of keys -/

section
variable {κ ν : Type} {hash : κ → BitVec 64} {d : Dict κ ν} {m : κ → Option ν}

theorem Represents.size_le (h : Represents hash d m) {keys : List κ} (hkeys : ∀ key, m key ≠ none → key ∈ keys) :
    dictSize d ≤ keys.length := by
  have hsub : d.entries.map (·.1) ⊆ keys := by
    intro key hkey
    obtain ⟨e, he, rfl⟩ := List.mem_map.1 hkey
    refine hkeys e.1 ?_
    rw [(h.maps e.1 e.2).2 he]
    exact Option.some_ne_none _
  rw [h.wf.size_eq, ← List.length_map]
  exact (List.subperm_of_subset h.wf.nodup hsub).length_le

theorem Represents.mem_keys (h : Represents hash d m) {key : κ} (hkey : m key ≠ none) :
    key ∈ d.entries.map (·.1) := by
  obtain ⟨val, hval⟩ := Option.ne_none_iff_exists'.1 hkey
  exact List.mem_map.2 ⟨(key, val), (h.maps key val).1 hval, rfl⟩

/-- A dictionary with no key the other has not is not larger. -/
theorem Represents.size_mono {ν' : Type} {d' : Dict κ ν'} {m' : κ → Option ν'} (h : Represents hash d m)
    (h' : Represents hash d' m') (hsub : ∀ key, m' key ≠ none → m key ≠ none) :
    dictSize d' ≤ dictSize d := by
  have hle := h'.size_le fun key hkey => h.mem_keys (hsub key hkey)
  rwa [List.length_map, ← h.wf.size_eq] at hle

/-- One more key is one more at most. -/
theorem Represents.size_succ {d' : Dict κ ν} [DecidableEq κ] (h : Represents hash d m) {key : κ} {val : ν}
    (h' : Represents hash d' (Function.update m key (some val))) : dictSize d' ≤ dictSize d + 1 := by
  have hsub : ∀ key', Function.update m key (some val) key' ≠ none → key' ∈ key :: d.entries.map (·.1) := by
    intro key' hkey'
    rw [List.mem_cons]
    by_cases heq : key' = key
    · exact .inl heq
    · rw [Function.update_of_ne heq] at hkey'
      exact .inr (h.mem_keys hkey')
  have hle := h'.size_le hsub
  rwa [List.length_cons, List.length_map, ← h.wf.size_eq] at hle

variable [DecidableEq κ]

theorem Represents.delete (h : Represents hash d m) (key : κ) :
    ∃ d', dictDelete hash d key = (d', (m key).isSome) ∧
      Represents hash d' (Function.update m key none) := by
  rcases h.wf.dictGenericDelete key with ⟨d', e, heq, hwf, hperm, rfl⟩ | ⟨d', heq, hsame, hnot⟩
  · have hsome := (h.maps e.1 e.2).2 (hperm.mem_iff.2 List.mem_cons_self)
    exact ⟨d', by rw [dictDelete, heq, hsome]; rfl, h.erase hwf hperm⟩
  · have hnone := (h.eq_none_iff key).2 hnot
    refine ⟨d', by rw [dictDelete, heq, hnone]; rfl, ?_⟩
    rw [← hnone, Function.update_eq_self]
    exact h.same hsame

theorem Represents.add (h : Represents hash d m) (hb : dictSize d < 2 ^ 62) (canResize : Bool) {key : κ}
    (hfresh : m key = none) (val : ν) :
    ∃ d', dictAdd canResize hash d key val = (d', true) ∧
      Represents hash d' (Function.update m key (some val)) := by
  rw [h.wf.size_eq] at hb
  rcases h.wf.dictAddRaw hb canResize key val with
    ⟨d', heq, hwf, hperm, hnot⟩ | ⟨d', e, heq, -, he, rfl⟩
  · exact ⟨d', by rw [dictAdd, heq], h.insert hwf hperm hnot⟩
  · exact absurd he fun hmem => (h.eq_none_iff e.1).1 hfresh e hmem rfl

theorem Represents.replace (h : Represents hash d m) (hb : dictSize d < 2 ^ 62) (canResize : Bool) (key : κ)
    (val : ν) :
    ∃ d', dictReplace canResize hash d key val = (d', (m key).isNone) ∧
      Represents hash d' (Function.update m key (some val)) := by
  rw [h.wf.size_eq] at hb
  rcases h.wf.dictAddRaw hb canResize key val with
    ⟨d', heq, hwf, hperm, hnot⟩ | ⟨d', e, heq, hsame, he, rfl⟩
  · have hnone := (h.eq_none_iff key).2 hnot
    exact ⟨d', by rw [dictReplace, heq, hnone]; rfl, h.insert hwf hperm hnot⟩
  · have hsome := (h.maps e.1 e.2).2 he
    exact ⟨_, by rw [dictReplace, heq, hsome]; rfl,
      (h.same hsame).setVal (hsame.perm.mem_iff.1 he) val⟩

end

/-! ## The store -/

/-- What is stored, also of the keys whose time has come. -/
structure Store where
  dict : Sds → Option Robj
  expires : Sds → Option Int

def Robj.Fits : Robj → Prop
  | .str _ => True
  | .int n => LLONG_MIN ≤ n ∧ n ≤ LLONG_MAX

/-- What can be stored under a key. -/
structure SoundAt (key : Sds) (val : Option Robj) (t : Option Int) : Prop where
  sub : t ≠ none → val ≠ none
  fits : ∀ o, val = some o → o.Fits
  time : ∀ u, t = some u → 0 ≤ u ∧ u ≤ LLONG_MAX

namespace Store

def Sound (s : Store) : Prop := ∀ key, SoundAt key (s.dict key) (s.expires key)

/-- One key gets a value and a time to live, or loses them. -/
def put (s : Store) (key : Sds) (val : Option Robj) (t : Option Int) : Store :=
  ⟨Function.update s.dict key val, Function.update s.expires key t⟩

def erase (s : Store) (key : Sds) : Store := s.put key none none

/-- The time of the key has come. -/
def due (s : Store) (now : Int) (key : Sds) : Bool := (s.expires key).any (· < now)

/-- `expireIfNeeded`. -/
def purge (s : Store) (now : Int) (key : Sds) : Store := if s.due now key then s.erase key else s

theorem dict_put (s : Store) (key : Sds) (val : Option Robj) (t : Option Int) (key' : Sds) :
    (s.put key val t).dict key' = if key' = key then val else s.dict key' := Function.update_apply ..

theorem expires_put (s : Store) (key : Sds) (val : Option Robj) (t : Option Int) (key' : Sds) :
    (s.put key val t).expires key' = if key' = key then t else s.expires key' := Function.update_apply ..

theorem put_self (s : Store) (key : Sds) : s.put key (s.dict key) (s.expires key) = s := by
  rw [put, Function.update_eq_self, Function.update_eq_self]

/-- The last value and time count. -/
theorem put_put (s : Store) (key : Sds) (val val' : Option Robj) (t t' : Option Int) :
    (s.put key val t).put key val' t' = s.put key val' t' := by
  rw [put, put, put, Function.update_idem, Function.update_idem]

theorem Sound.put {s : Store} (h : s.Sound) {key : Sds} {val : Option Robj} {t : Option Int}
    (hnew : SoundAt key val t) : (s.put key val t).Sound := by
  intro key'
  rw [dict_put, expires_put]
  by_cases heq : key' = key
  · rw [if_pos heq, if_pos heq, heq]
    exact hnew
  · rw [if_neg heq, if_neg heq]
    exact h key'

theorem Sound.erase {s : Store} (h : s.Sound) (key : Sds) : (s.erase key).Sound :=
  h.put ⟨fun hne => absurd rfl hne, fun _ hn => absurd hn.symm (Option.some_ne_none _),
    fun _ hn => absurd hn.symm (Option.some_ne_none _)⟩

theorem Sound.purge {s : Store} (h : s.Sound) (now : Int) (key : Sds) : (s.purge now key).Sound := by
  rw [Store.purge]
  split
  · exact h.erase key
  · exact h

end Store

/-- The database holds the store, and at most `n` keys. -/
structure Holds (hash : Sds → BitVec 64) (n : Nat) (s : Store) (db : RedisDb) : Prop where
  dict : Represents hash db.dict s.dict
  expires : Represents hash db.expires s.expires
  sound : s.Sound
  le : dictSize db.dict ≤ n

theorem Holds.mono {hash : Sds → BitVec 64} {n n' : Nat} {s : Store} {db : RedisDb} (h : Holds hash n s db)
    (hn : n ≤ n') : Holds hash n' s db := ⟨h.dict, h.expires, h.sound, Nat.le_trans h.le hn⟩

/-! ## Functions below the commands -/

section
variable {hash : Sds → BitVec 64} {n n' : Nat} {s s' : Store} {α : Type} {a : α}

theorem gives_onDict {f : Dict Sds Robj → Dict Sds Robj × α}
    (h : ∀ db, Holds hash n s db → ∃ d, f db.dict = (d, a) ∧ Holds hash n' s' { db with dict := d }) :
    Prog.Gives (Holds hash n s) (onDict f) a (Holds hash n' s') := by
  intro db hdb
  obtain ⟨d, heq, hd⟩ := h db hdb
  refine ⟨{ db with dict := d }, ?_, hd⟩
  simp only [onDict, Prog.exec_bind, Prog.exec_get, Prog.exec_set, Prog.exec_pure, heq]

theorem gives_onExpires {f : Dict Sds Int → Dict Sds Int × α}
    (h : ∀ db, Holds hash n s db → ∃ d, f db.expires = (d, a) ∧ Holds hash n' s' { db with expires := d }) :
    Prog.Gives (Holds hash n s) (onExpires f) a (Holds hash n' s') := by
  intro db hdb
  obtain ⟨d, heq, hd⟩ := h db hdb
  refine ⟨{ db with expires := d }, ?_, hd⟩
  simp only [onExpires, Prog.exec_bind, Prog.exec_get, Prog.exec_set, Prog.exec_pure, heq]

/-- There may be one more key. -/
theorem gives_succ {P : RedisDb → Prop} {x : Call α} (h : Prog.Gives P x a (Holds hash n s)) :
    Prog.Gives P x a (Holds hash (n + 1) s) := h.post fun _ h => h.mono (Nat.le_succ n)

theorem gives_serverAssert {P : RedisDb → Prop} {b : Bool} (h : b = true) :
    Prog.Gives P (serverAssert b) () P := by
  rw [serverAssert, if_pos h]
  exact .pure ()

theorem Holds.set_dict {db : RedisDb} {d : Dict Sds Robj} (h : Holds hash n s db)
    (hd : Represents hash d s.dict) : Holds hash n s { db with dict := d } :=
  ⟨hd, h.expires, h.sound, Nat.le_trans (h.dict.size_mono hd fun _ hkey => hkey) h.le⟩

end

section
variable {server : Server} {n : Nat} {s : Store} {key : Sds}

theorem gives_lookupKey :
    Prog.Gives (Holds server.hash n s) (lookupKey server key) (s.dict key) (Holds server.hash n s) := by
  refine gives_onDict fun db h => ?_
  obtain ⟨d, heq, hsame⟩ := h.dict.of_fetch key
  exact ⟨d, heq, h.set_dict (h.dict.same hsame)⟩

theorem gives_fetchExpires :
    Prog.Gives (Holds server.hash n s) (onExpires fun d => dictFetchValue server.hash d key) (s.expires key)
      (Holds server.hash n s) := by
  refine gives_onExpires fun db h => ?_
  obtain ⟨d, heq, hsame⟩ := h.expires.of_fetch key
  exact ⟨d, heq, h.dict, h.expires.same hsame, h.sound, h.le⟩

/-- Once a key is looked up before an assertion that it is there. -/
theorem gives_present {P : RedisDb → Prop} {β : Type} {x : Call β} {b : β} (hkey : s.dict key ≠ none)
    (hx : Prog.Gives (Holds server.hash n s) x b P) :
    Prog.Gives (Holds server.hash n s) (do
      let o ← lookupKey server key
      serverAssert o.isSome
      x) b P :=
  gives_lookupKey.bind ((gives_serverAssert (Option.isSome_iff_ne_none.2 hkey)).bind hx)

theorem Holds.expires_eq_none {hash : Sds → BitVec 64} {db : RedisDb} (h : Holds hash n s db)
    (hzero : dictSize db.expires = 0) (key : Sds) : s.expires key = none := by
  have hnil : db.expires.entries = [] := List.eq_nil_of_length_eq_zero (h.expires.wf.size_eq ▸ hzero)
  exact (h.expires.eq_none_iff key).2 (by simp [hnil])

theorem gives_getExpire :
    Prog.Gives (Holds server.hash n s) (getExpire server key) ((s.expires key).getD (-1))
      (Holds server.hash n s) := by
  rw [getExpire]
  refine .get_bind fun db h => ?_
  split
  · next hzero =>
    rw [h.expires_eq_none hzero]
    exact (Prog.Gives.pure _).post fun _ h => h.1
  · refine Prog.Gives.pre ?_ fun _ h => h.1
    refine gives_fetchExpires.bind ?_
    cases ht : s.expires key with
    | none => exact .pure _
    | some t =>
      exact gives_present ((h.sound key).sub (ht ▸ Option.some_ne_none t)) (.pure _)

theorem gives_deleteExpires :
    Prog.Gives (Holds server.hash n s) (onExpires fun d => dictDelete server.hash d key)
      (s.expires key).isSome (Holds server.hash n (s.put key (s.dict key) none)) := by
  refine gives_onExpires fun db h => ?_
  obtain ⟨d, heq, hd⟩ := h.expires.delete key
  refine ⟨d, heq, ?_, hd, h.sound.put ?_, h.le⟩
  · rw [Store.put, Function.update_eq_self]
    exact h.dict
  · exact ⟨fun hne => absurd rfl hne, (h.sound key).fits,
      fun _ hn => absurd hn.symm (Option.some_ne_none _)⟩

theorem gives_deleteDict (ht : s.expires key = none) :
    Prog.Gives (Holds server.hash n s) (onDict fun d => dictDelete server.hash d key)
      (s.dict key).isSome (Holds server.hash n (s.erase key)) := by
  refine gives_onDict fun db h => ?_
  obtain ⟨d, heq, hd⟩ := h.dict.delete key
  refine ⟨d, heq, hd, ?_, h.sound.erase key, ?_⟩
  · rw [Store.erase, Store.put, ← ht, Function.update_eq_self]
    exact h.expires
  · refine Nat.le_trans (h.dict.size_mono hd ?_) h.le
    intro key' hkey'
    rw [Function.update_apply] at hkey'
    split at hkey'
    · exact absurd rfl hkey'
    · exact hkey'

theorem gives_dbSyncDelete :
    Prog.Gives (Holds server.hash n s) (dbSyncDelete server key) (s.dict key).isSome
      (Holds server.hash n (s.erase key)) := by
  rw [dbSyncDelete]
  refine .get_bind fun db h => ?_
  refine Prog.Gives.pre ?_ fun _ h => h.1
  dsimp only
  split
  · refine gives_deleteExpires.bind ?_
    have hdict : (s.put key (s.dict key) none).dict key = s.dict key := by rw [Store.dict_put, if_pos rfl]
    have herase : (s.put key (s.dict key) none).erase key = s.erase key := Store.put_put ..
    have hlast : Prog.Gives (Holds server.hash n (s.put key (s.dict key) none)) (onDict _) _
        (Holds server.hash n _) :=
      gives_deleteDict (show (s.put key (s.dict key) none).expires key = none by rw [Store.expires_put, if_pos rfl])
    rwa [hdict, herase] at hlast
  · next hzero => exact gives_deleteDict (h.expires_eq_none (by omega) key)

/-- The store is rid of the key if its time had come. -/
theorem gives_expireIfNeeded :
    Prog.Gives (Holds server.hash n s) (expireIfNeeded server key) (s.due server.mstime key)
      (Holds server.hash n (s.purge server.mstime key)) := by
  rw [expireIfNeeded]
  refine gives_getExpire.bind ?_
  rw [Store.purge, Store.due]
  cases ht : s.expires key with
  | none => exact .pure _
  | some t =>
    rw [Option.getD_some, Option.any_some]
    refine .assume fun db h => ?_
    have hpos := ((h.sound key).time t ht).1
    have hsome : (s.dict key).isSome = true :=
      Option.isSome_iff_ne_none.2 ((h.sound key).sub (ht ▸ Option.some_ne_none t))
    rw [if_neg (by omega)]
    by_cases hdue : t < server.mstime
    · rw [if_neg (by omega), if_pos (decide_eq_true hdue), decide_eq_true hdue, ← hsome]
      exact gives_dbSyncDelete
    · rw [if_pos (by omega), if_neg (by simpa using hdue), decide_eq_false hdue]
      exact .pure _

theorem Store.due_purge (s : Store) (now : Int) (key : Sds) : (s.purge now key).due now key = false := by
  rw [Store.purge]
  split
  · rw [Store.due, Store.erase, Store.expires_put, if_pos rfl]
    rfl
  · next h => simpa using h

theorem gives_lookupKeyRead :
    Prog.Gives (Holds server.hash n s) (lookupKeyRead server key) ((s.purge server.mstime key).dict key)
      (Holds server.hash n (s.purge server.mstime key)) := by
  rw [lookupKeyRead]
  refine gives_expireIfNeeded.bind ?_
  split
  · next hdue =>
    rw [Store.purge, if_pos hdue, Store.erase, Store.dict_put, if_pos rfl]
    exact .pure _
  · exact gives_lookupKey

theorem gives_lookupKeyWrite :
    Prog.Gives (Holds server.hash n s) (lookupKeyWrite server key) ((s.purge server.mstime key).dict key)
      (Holds server.hash n (s.purge server.mstime key)) := by
  rw [lookupKeyWrite]
  exact gives_expireIfNeeded.bind gives_lookupKey

/-! ### Writing -/

theorem gives_dbAdd (hn : n < 2 ^ 62) (hfresh : s.dict key = none) {val : Robj} (hval : val.Fits) :
    Prog.Gives (Holds server.hash n s) (dbAdd server key val) ()
      (Holds server.hash (n + 1) (s.put key (some val) (s.expires key))) := by
  rw [dbAdd]
  refine Prog.Gives.bind ?_ (gives_serverAssert rfl)
  refine gives_onDict fun db h => ?_
  obtain ⟨d, heq, hd⟩ := h.dict.add (Nat.lt_of_le_of_lt h.le hn) server.canResize hfresh val
  refine ⟨d, heq, hd, ?_, h.sound.put ?_, Nat.le_trans (h.dict.size_succ hd) (Nat.succ_le_succ h.le)⟩
  · rw [Store.put, Function.update_eq_self]
    exact h.expires
  · exact ⟨fun _ => Option.some_ne_none _, fun o ho => Option.some.inj ho ▸ hval, (h.sound key).time⟩

theorem gives_replaceDict (hn : n < 2 ^ 62) (hkey : s.dict key ≠ none) {val : Robj} (hval : val.Fits) :
    Prog.Gives (Holds server.hash n s)
      (onDict fun d => dictReplace server.canResize server.hash d key val) (s.dict key).isNone
      (Holds server.hash n (s.put key (some val) (s.expires key))) := by
  refine gives_onDict fun db h => ?_
  obtain ⟨d, heq, hd⟩ := h.dict.replace (Nat.lt_of_le_of_lt h.le hn) server.canResize key val
  refine ⟨d, heq, hd, ?_, h.sound.put ?_, ?_⟩
  · rw [Store.put, Function.update_eq_self]
    exact h.expires
  · exact ⟨fun _ => Option.some_ne_none _, fun o ho => Option.some.inj ho ▸ hval, (h.sound key).time⟩
  · refine Nat.le_trans (h.dict.size_mono hd ?_) h.le
    intro key' hkey'
    rw [Function.update_apply] at hkey'
    split at hkey'
    · next heq => exact heq ▸ hkey
    · exact hkey'

theorem gives_dbOverwrite (hn : n < 2 ^ 62) (hkey : s.dict key ≠ none) {val : Robj} (hval : val.Fits) :
    Prog.Gives (Holds server.hash n s) (dbOverwrite server key val) ()
      (Holds server.hash n (s.put key (some val) (s.expires key))) := by
  rw [dbOverwrite]
  exact gives_present hkey ((gives_replaceDict hn hkey hval).bind (.pure _))

theorem gives_removeExpire (hkey : s.dict key ≠ none) :
    Prog.Gives (Holds server.hash n s) (removeExpire server key) (s.expires key).isSome
      (Holds server.hash n (s.put key (s.dict key) none)) := by
  rw [removeExpire]
  exact gives_present hkey gives_deleteExpires

theorem gives_replaceExpires (hn : n < 2 ^ 62) (hkey : s.dict key ≠ none) {t : Int}
    (ht : 0 ≤ t ∧ t ≤ LLONG_MAX) :
    Prog.Gives (Holds server.hash n s)
      (onExpires fun d => dictReplace server.canResize server.hash d key t) (s.expires key).isNone
      (Holds server.hash n (s.put key (s.dict key) (some t))) := by
  refine gives_onExpires fun db h => ?_
  have hle := h.dict.size_mono h.expires fun key hk => (h.sound key).sub hk
  have hb : dictSize db.expires < 2 ^ 62 := Nat.lt_of_le_of_lt (Nat.le_trans hle h.le) hn
  obtain ⟨d, heq, hd⟩ := h.expires.replace hb server.canResize key t
  refine ⟨d, heq, ?_, hd, h.sound.put ?_, h.le⟩
  · rw [Store.put, Function.update_eq_self]
    exact h.dict
  · exact ⟨fun _ => hkey, (h.sound key).fits, fun u hu => Option.some.inj hu ▸ ht⟩

theorem gives_setExpire (hn : n < 2 ^ 62) (hkey : s.dict key ≠ none) {t : Int} (ht : 0 ≤ t ∧ t ≤ LLONG_MAX) :
    Prog.Gives (Holds server.hash n s) (setExpire server key t) ()
      (Holds server.hash n (s.put key (s.dict key) (some t))) := by
  rw [setExpire]
  exact gives_present hkey ((gives_replaceExpires hn hkey ht).bind (.pure _))

/-- Afterwards the key has the value, and no time to live. -/
theorem gives_setKey (hn : n < 2 ^ 62) {val : Robj} (hval : val.Fits) :
    Prog.Gives (Holds server.hash n s) (setKey server key val) ()
      (Holds server.hash (n + 1) ((s.purge server.mstime key).put key (some val) none)) := by
  rw [setKey]
  refine gives_lookupKeyWrite.bind ?_
  dsimp only
  generalize s.purge server.mstime key = s
  have hlast : ∀ n, Prog.Gives (Holds server.hash n (s.put key (some val) (s.expires key)))
      (do let _ ← removeExpire server key; pure ()) ()
      (Holds server.hash n (s.put key (some val) none)) := by
    intro n
    have hdict : (s.put key (some val) (s.expires key)).dict key = some val := by
      rw [Store.dict_put, if_pos rfl]
    have hremove : Prog.Gives (Holds server.hash n (s.put key (some val) (s.expires key)))
        (removeExpire server key) _ (Holds server.hash n _) :=
      gives_removeExpire (by rw [hdict]; exact Option.some_ne_none val)
    rw [hdict, Store.put_put] at hremove
    exact hremove.bind (.pure _)
  split
  · next hnone =>
    exact (gives_dbAdd hn (Option.isNone_iff_eq_none.1 hnone) hval).bind (hlast _)
  · next hsome =>
    have hne : s.dict key ≠ none := fun h => hsome (Option.isNone_iff_eq_none.2 h)
    exact (gives_dbOverwrite hn hne hval).bind (gives_succ (hlast _))

end

end Redis
