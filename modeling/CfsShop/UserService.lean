/-
`UserServiceImlp`: the cached user lookup `getById` and `login`, cut where
another thread may come between.

A lookup goes to the cache, and under a distributed lock to the cache again
and then to `miaosha_user`. A login writes two Redis maps, first the session
under its token and then the user under the user's id. Between the two the
token is known to nobody but the login itself.
-/
import CfsShop.Mapper
import Mathlib.Algebra.Order.Ring.Int

namespace CfsShop

namespace CodeMsg

def SERVER_ERROR : CodeMsg := ⟨500100, "服务端异常"⟩
def MOBILE_NOT_EXIST : CodeMsg := ⟨500214, "手机号不存在"⟩
def PASSWORD_ERROR : CodeMsg := ⟨500215, "密码错误"⟩

end CodeMsg

/-- The exceptions a login can end with. -/
inductive UserEx
  /-- `MsgException` -/
  | msg (codeMsg : CodeMsg)
  | numberFormat
  | nullPointer
  | stringIndexOutOfBounds
  deriving DecidableEq, Repr

structure LoginVo where
  mobile : Option String
  password : Option String
  deriving DecidableEq, Repr

/-! ## Numbers and passwords -/

namespace Character

/-- The zeros of the decimal digits among Java's `char`s; nine more follow each. -/
def zeros : List Nat :=
  [0x0030, 0x0660, 0x06F0, 0x07C0, 0x0966, 0x09E6, 0x0A66, 0x0AE6, 0x0B66, 0x0BE6, 0x0C66, 0x0CE6,
    0x0D66, 0x0E50, 0x0ED0, 0x0F20, 0x1040, 0x1090, 0x17E0, 0x1810, 0x1946, 0x19D0, 0x1A80, 0x1A90,
    0x1B50, 0x1BB0, 0x1C40, 0x1C50, 0xA620, 0xA8D0, 0xA900, 0xA9D0, 0xAA50, 0xABF0, 0xFF10]

/-- `Character.digit(c, 10)`, `none` for -1. -/
def digit (c : Char) : Option Nat :=
  (zeros.find? fun z => z ≤ c.toNat ∧ c.toNat < z + 10).map (c.toNat - ·)

end Character

namespace Long

/-- The digits of a number; there has to be one. -/
def digits : List Char → Option Nat
  | [] => none
  | cs => cs.foldlM (fun n c => (Character.digit c).map (10 * n + ·)) 0

/-- A `long`, or an overflow. -/
def inRange (n : Int) : Option Int := if -2 ^ 63 ≤ n ∧ n < 2 ^ 63 then some n else none

/-- `Long.parseLong`, `none` where it throws. -/
def parseLong (s : String) : Option Long :=
  match s.toList with
  | '-' :: cs => (digits cs).bind fun n => inRange (-n)
  | '+' :: cs => (digits cs).bind fun n => inRange n
  | cs => (digits cs).bind fun n => inRange n

end Long

example : Long.parseLong "13000000000" = some 13000000000 := by decide

namespace MD5Util

/-- The `char`s of a string: two for what lies beyond the first plane. -/
def chars (s : String) : List UInt16 :=
  s.toList.flatMap fun c =>
    if c.toNat < 0x10000 then [c.toNat.toUInt16]
    else [(0xD800 + (c.toNat - 0x10000) / 0x400).toUInt16,
      (0xDC00 + (c.toNat - 0x10000) % 0x400).toUInt16]

def charAt (s : String) (i : Nat) : Except UserEx UInt16 :=
  match (chars s)[i]? with
  | some c => .ok c
  | none => .error .stringIndexOutOfBounds

/-- `md5Hex` is `DigestUtils.md5Hex`. -/
def formPassToDBPass (md5Hex : List UInt16 → String) (formPass salt : String) :
    Except UserEx String := do
  let c0 ← charAt salt 0
  let c2 ← charAt salt 2
  let c5 ← charAt salt 5
  let c4 ← charAt salt 4
  return md5Hex ([c0, c2] ++ chars formPass ++ [c5, c4])

end MD5Util

/-! ## The lookup -/

/-- What the lookups of all instances share: the table, the Bloom filter of its ids, the
`RMapCache` and the `RLock`, both named `user`. -/
structure UserStore where
  miaoshaUser : Table MiaoshaUser Long MiaoshaUser.id
  /-- `RBloomFilter.contains` -/
  bloomFileter : Long → Bool
  rMapCache : Long → Option MiaoshaUser
  locked : Bool

/-- Where a `getById` stands. -/
inductive Lookup
  | contains
  | get
  | lock
  /-- The second look into the cache, under the lock. -/
  | getLocked
  | select
  | put (user : Option MiaoshaUser)
  | unlock (result : Except UserEx (Option MiaoshaUser))
  | returned (result : Except UserEx (Option MiaoshaUser))
  deriving DecidableEq

namespace Lookup

/-- One access to the shared store, and the code up to the next one. A lock that is held is
waited for, unless its holder is gone and the lease is over. -/
def step (leaseOver : Bool) (id : Long) (s : UserStore) : Lookup → Option (UserStore × Lookup)
  | contains => some (s, if s.bloomFileter id then get else returned (.ok none))
  | get =>
    match s.rMapCache id with
    | some user => some (s, returned (.ok (some user)))
    | none => some (s, lock)
  | lock => if s.locked && !leaseOver then none else some ({ s with locked := true }, getLocked)
  | getLocked =>
    match s.rMapCache id with
    | some user => some (s, unlock (.ok (some user)))
    | none => some (s, select)
  | select => some (s, put (s.miaoshaUser.find? id))
  -- `RMapCache.put` refuses null; `finally` unlocks all the same.
  | put none => some (s, unlock (.error .nullPointer))
  | put (some user) =>
    some ({ s with rMapCache := Function.update s.rMapCache id (some user) }, unlock (.ok (some user)))
  | unlock result => some ({ s with locked := false }, returned result)
  | returned _ => none

/-- What one step can do. -/
inductive Moves (leaseOver : Bool) (id : Long) (s : UserStore) :
    Lookup → UserStore → Lookup → Prop
  | absent : s.bloomFileter id = false → Moves leaseOver id s contains s (returned (.ok none))
  | maybe : s.bloomFileter id = true → Moves leaseOver id s contains s get
  | hit {user} : s.rMapCache id = some user →
      Moves leaseOver id s get s (returned (.ok (some user)))
  | miss : s.rMapCache id = none → Moves leaseOver id s get s lock
  | locked : (s.locked && !leaseOver) = false →
      Moves leaseOver id s lock { s with locked := true } getLocked
  | hitLocked {user} : s.rMapCache id = some user →
      Moves leaseOver id s getLocked s (unlock (.ok (some user)))
  | missLocked : s.rMapCache id = none → Moves leaseOver id s getLocked s select
  | selected : Moves leaseOver id s select s (put (s.miaoshaUser.find? id))
  | refused : Moves leaseOver id s (put none) s (unlock (.error .nullPointer))
  | filled {user} : Moves leaseOver id s (put (some user))
      { s with rMapCache := Function.update s.rMapCache id (some user) } (unlock (.ok (some user)))
  | unlocked {result} :
      Moves leaseOver id s (unlock result) { s with locked := false } (returned result)

theorem step_moves {leaseOver : Bool} {id : Long} {s s' : UserStore} {f f' : Lookup}
    (h : f.step leaseOver id s = some (s', f')) : Moves leaseOver id s f s' f' := by
  cases f with
  | contains =>
    cases hb : s.bloomFileter id with
    | false =>
      simp only [step, hb] at h
      cases h
      exact .absent hb
    | true =>
      simp only [step, hb] at h
      cases h
      exact .maybe hb
  | get =>
    simp only [step] at h
    split at h
    · next hc =>
      cases h
      exact .hit hc
    · next hc =>
      cases h
      exact .miss hc
  | lock =>
    simp only [step] at h
    split at h
    · cases h
    · next hl =>
      cases h
      exact .locked (Bool.eq_false_of_not_eq_true hl)
  | getLocked =>
    simp only [step] at h
    split at h
    · next hc =>
      cases h
      exact .hitLocked hc
    · next hc =>
      cases h
      exact .missLocked hc
  | select =>
    cases h
    exact .selected
  | put user =>
    cases user with
    | none =>
      cases h
      exact .refused
    | some user =>
      cases h
      exact .filled
  | unlock result =>
    cases h
    exact .unlocked
  | returned result => cases h

end Lookup

/-! ## The login -/

/-- The maps a login writes, and what it looks users up in. -/
structure Accounts where
  users : UserStore
  /-- `RMap` `token_user`. -/
  tokenUser : String → Option SessionUser
  /-- `RMap` `miao_sha_user`. -/
  miaoShaUser : Long → Option MiaoshaUser

/-- The locals of a login whose mobile is a number. -/
structure Attempt where
  loginVo : LoginVo
  mobile : String
  password : String
  id : Long
  mobile_eq : loginVo.mobile = some mobile
  password_eq : loginVo.password = some password
  id_eq : Long.parseLong mobile = some id

/-- Where a login stands. -/
inductive Login
  | start (loginVo : Option LoginVo)
  | getById (a : Attempt) (f : Lookup)
  | putToken (a : Attempt) (user : MiaoshaUser) (token : String)
  | putUser (a : Attempt) (user : MiaoshaUser) (token : String)
  | returned (token : String)
  | threw (e : UserEx)

/-- What a login reports to the history. -/
inductive LoginEvent
  /-- `UUIDUtil.uuid` gave the login its token. -/
  | drew (loginVo : LoginVo) (token : String)
  | returned (loginVo : LoginVo) (token : String)
  deriving DecidableEq

namespace Login

/-- From the parameter to the lookup. -/
def begin : Option LoginVo → Login
  | none => threw (.msg CodeMsg.SERVER_ERROR)
  | some loginVo =>
    match hp : loginVo.password, hm : loginVo.mobile with
    | some password, some mobile =>
      match hid : Long.parseLong mobile with
      | some id => getById ⟨loginVo, mobile, password, id, hm, hp, hid⟩ .contains
      | none => threw .numberFormat
    | _, _ => threw (.msg CodeMsg.SERVER_ERROR)

/-- The password of the user that was found, against the one given. -/
def verify (md5Hex : List UInt16 → String) (password : String) (user : MiaoshaUser) :
    Except UserEx Unit := do
  match user.salt with
  | none => throw .nullPointer
  | some saltDB =>
    let calcPass ← MD5Util.formPassToDBPass md5Hex password saltDB
    if user.password = some calcPass then return () else throw (.msg CodeMsg.PASSWORD_ERROR)

/-- One access to the shared store, and the code up to the next one. `token` is what
`UUIDUtil.uuid` would give. -/
def step (md5Hex : List UInt16 → String) (leaseOver : Bool) (token : String) (s : Accounts) :
    Login → Option (Accounts × Login × List LoginEvent)
  | start loginVo => some (s, begin loginVo, [])
  | getById _ (.returned (.error e)) => some (s, threw e, [])
  | getById _ (.returned (.ok none)) => some (s, threw (.msg CodeMsg.MOBILE_NOT_EXIST), [])
  | getById a (.returned (.ok (some user))) =>
    match verify md5Hex a.password user with
    | .ok _ => some (s, putToken a user token, [.drew a.loginVo token])
    | .error e => some (s, threw e, [])
  | getById a f =>
    match f.step leaseOver a.id s.users with
    | some (users, f') => some ({ s with users }, getById a f', [])
    | none => none
  | putToken a user token =>
    some ({ s with tokenUser := Function.update s.tokenUser token (some ⟨user.id⟩) },
      putUser a user token, [])
  | putUser a user token =>
    match user.id with
    -- Redisson refuses a null key.
    | none => some (s, threw .nullPointer, [])
    | some id =>
      some ({ s with miaoShaUser := Function.update s.miaoShaUser id (some user) }, returned token,
        [.returned a.loginVo token])
  | returned _ => none
  | threw _ => none

section

variable {md5Hex : List UInt16 → String} {leaseOver : Bool} {token : String}

/-- What one step can do. -/
inductive Step (md5Hex : List UInt16 → String) (leaseOver : Bool) (token : String) (s : Accounts) :
    Login → Accounts → Login → List LoginEvent → Prop
  | begun {loginVo} : Step md5Hex leaseOver token s (start loginVo) s (begin loginVo) []
  | looked {a f users f'} : f.step leaseOver a.id s.users = some (users, f') →
      Step md5Hex leaseOver token s (getById a f) { s with users } (getById a f') []
  | failed {f e} : Step md5Hex leaseOver token s f s (threw e) []
  | verified {a user} : verify md5Hex a.password user = .ok () →
      Step md5Hex leaseOver token s (getById a (.returned (.ok (some user)))) s (putToken a user token)
        [.drew a.loginVo token]
  | tokenPut {a user t} : Step md5Hex leaseOver token s (putToken a user t)
      { s with tokenUser := Function.update s.tokenUser t (some ⟨user.id⟩) } (putUser a user t) []
  | userPut {a user t id} : user.id = some id → Step md5Hex leaseOver token s (putUser a user t)
      { s with miaoShaUser := Function.update s.miaoShaUser id (some user) } (returned t)
      [.returned a.loginVo t]

theorem step_spec {s s' : Accounts} {f f' : Login} {es : List LoginEvent}
    (h : f.step md5Hex leaseOver token s = some (s', f', es)) :
    Step md5Hex leaseOver token s f s' f' es := by
  cases f with
  | start loginVo =>
    cases h
    exact .begun
  | getById a f =>
    unfold step at h
    split at h
    · next he => cases he
    · cases h
      exact .failed
    · cases h
      exact .failed
    · next he =>
      cases he
      split at h
      · next hv =>
        cases h
        exact .verified hv
      · cases h
        exact .failed
    · next he =>
      cases he
      split at h
      · next hs =>
        cases h
        exact .looked hs
      · cases h
    · next he => cases he
    · next he => cases he
    · next he => cases he
    · next he => cases he
  | putToken a user t =>
    cases h
    exact .tokenPut
  | putUser a user t =>
    simp only [step] at h
    split at h
    · cases h
      exact .failed
    · next hid =>
      cases h
      exact .userPut hid
  | returned t => cases h
  | threw e => cases h

end

end Login

/-! ## Whose password it was -/

section Genuine

variable (md5Hex : List UInt16 → String) (miaoshaUser : Table MiaoshaUser Long MiaoshaUser.id)

/-- The mobile is the number of the user, and the password is the user's. -/
def Genuine (loginVo : LoginVo) (u : Long) : Prop :=
  ∃ mobile password user salt calcPass,
    loginVo.mobile = some mobile ∧ Long.parseLong mobile = some u ∧ loginVo.password = some password ∧
    miaoshaUser.find? u = some user ∧ user.salt = some salt ∧
    MD5Util.formPassToDBPass md5Hex password salt = .ok calcPass ∧ user.password = some calcPass

variable {md5Hex miaoshaUser}

/-- A login vouches for one user. -/
theorem Genuine.unique {loginVo : LoginVo} {u u' : Long} (h : Genuine md5Hex miaoshaUser loginVo u)
    (h' : Genuine md5Hex miaoshaUser loginVo u') : u = u' := by
  obtain ⟨mobile, -, -, -, -, hm, hu, -⟩ := h
  obtain ⟨mobile', -, -, -, -, hm', hu', -⟩ := h'
  rw [hm, Option.some.injEq] at hm'
  subst hm'
  rw [hu, Option.some.injEq] at hu'
  exact hu'

theorem Login.genuine_of_verify {a : Attempt} {user : MiaoshaUser}
    (huser : miaoshaUser.find? a.id = some user) (h : verify md5Hex a.password user = .ok ()) :
    Genuine md5Hex miaoshaUser a.loginVo a.id := by
  unfold verify at h
  split at h
  · cases h
  · next salt hsalt =>
    cases hc : MD5Util.formPassToDBPass md5Hex a.password salt with
    | error e =>
      rw [hc] at h
      cases h
    | ok calcPass =>
      rw [hc] at h
      by_cases hp : user.password = some calcPass
      · exact ⟨a.mobile, a.password, user, salt, calcPass, a.mobile_eq, a.id_eq, a.password_eq, huser,
          hsalt, hc, hp⟩
      · simp only [bind, Except.bind, if_neg hp] at h
        cases h

/-- The cache holds rows of the table. -/
def UserStore.Cached (s : UserStore) : Prop :=
  ∀ id user, s.rMapCache id = some user → s.miaoshaUser.find? id = some user

namespace Lookup

/-- What a lookup has found is the row. -/
def Found (miaoshaUser : Table MiaoshaUser Long MiaoshaUser.id) (id : Long) : Lookup → Prop
  | put user => user = miaoshaUser.find? id
  | unlock result | returned result =>
    ∀ user, result = .ok (some user) → miaoshaUser.find? id = some user
  | _ => True

/-- The table stays as it is, and what is put into the cache is its row. -/
theorem Moves.cached {leaseOver : Bool} {id : Long} {s s' : UserStore} {f f' : Lookup}
    (h : Moves leaseOver id s f s' f') (hs : s.Cached)
    (hput : ∀ user, f = put user → user = s.miaoshaUser.find? id) :
    s'.miaoshaUser = s.miaoshaUser ∧ s'.bloomFileter = s.bloomFileter ∧ s'.Cached := by
  cases h with
  | @filled user =>
    refine ⟨rfl, rfl, ?_⟩
    intro id' user' hc
    simp only [Function.update_apply] at hc
    split at hc
    · next he =>
      rw [he, ← hput (some user) rfl]
      exact hc
    · exact hs id' user' hc
  | _ => exact ⟨rfl, rfl, hs⟩

theorem step_found {leaseOver : Bool} {id : Long} {s s' : UserStore} {f f' : Lookup}
    (h : f.step leaseOver id s = some (s', f')) (hs : s.Cached) (hf : f.Found s.miaoshaUser id) :
    s'.miaoshaUser = s.miaoshaUser ∧ s'.Cached ∧ f'.Found s.miaoshaUser id := by
  have hmoves := step_moves h
  have hput : ∀ user, f = put user → user = s.miaoshaUser.find? id := by
    intro user he
    subst he
    exact hf
  obtain ⟨htable, -, hcached⟩ := hmoves.cached hs hput
  refine ⟨htable, hcached, ?_⟩
  cases hmoves with
  | hit hc | hitLocked hc =>
    intro user he
    cases he
    exact hs id _ hc
  | selected => rfl
  | filled =>
    intro user he
    cases he
    exact (hput _ rfl).symm
  | unlocked => exact hf
  | absent | refused =>
    intro user he
    cases he
  | _ => trivial

end Lookup

/-- Sessions and users in Redis go back to logins. -/
structure Accounts.Sound (md5Hex : List UInt16 → String)
    (miaoshaUser : Table MiaoshaUser Long MiaoshaUser.id) (s : Accounts) (log : List LoginEvent) :
    Prop where
  table : s.users.miaoshaUser = miaoshaUser
  cached : s.users.Cached
  tokens : ∀ t su, s.tokenUser t = some su →
    ∃ vo u, .drew vo t ∈ log ∧ su.userId = some u ∧ Genuine md5Hex miaoshaUser vo u
  returned : ∀ vo t, .returned vo t ∈ log → .drew vo t ∈ log ∧
    ∃ u, Genuine md5Hex miaoshaUser vo u ∧ (s.miaoShaUser u).isSome
  users : ∀ u user, s.miaoShaUser u = some user → user.id = some u

/-- What a login carries. -/
def Login.Sound (md5Hex : List UInt16 → String)
    (miaoshaUser : Table MiaoshaUser Long MiaoshaUser.id) (log : List LoginEvent) : Login → Prop
  | getById a f => f.Found miaoshaUser a.id
  | putToken a user t | putUser a user t =>
    miaoshaUser.find? a.id = some user ∧ Genuine md5Hex miaoshaUser a.loginVo a.id ∧
      .drew a.loginVo t ∈ log
  | _ => True

theorem Login.Sound.later {log : List LoginEvent} {f : Login} (h : f.Sound md5Hex miaoshaUser log)
    (es : List LoginEvent) : f.Sound md5Hex miaoshaUser (log ++ es) := by
  cases f with
  | putToken | putUser => exact ⟨h.1, h.2.1, List.mem_append_left es h.2.2⟩
  | _ => exact h

theorem Login.sound_begin (loginVo : Option LoginVo) (log : List LoginEvent) :
    (begin loginVo).Sound md5Hex miaoshaUser log := by
  unfold begin
  split
  · trivial
  · split
    · split <;> trivial
    · trivial

/-- A login keeps the maps sound. -/
theorem Login.Step.sound {leaseOver : Bool} {token : String} {s s' : Accounts} {f f' : Login}
    {es log : List LoginEvent} (h : Step md5Hex leaseOver token s f s' f' es)
    (hs : s.Sound md5Hex miaoshaUser log) (hf : f.Sound md5Hex miaoshaUser log) :
    s'.Sound md5Hex miaoshaUser (log ++ es) ∧ f'.Sound md5Hex miaoshaUser (log ++ es) := by
  cases h with
  | begun =>
    rw [List.append_nil]
    exact ⟨hs, sound_begin _ _⟩
  | failed =>
    rw [List.append_nil]
    exact ⟨hs, trivial⟩
  | looked hstep =>
    rw [List.append_nil]
    have hf' : Lookup.Found s.users.miaoshaUser _ _ := hs.table ▸ hf
    obtain ⟨htable, hcached, hfound⟩ := Lookup.step_found hstep hs.cached hf'
    rw [hs.table] at htable hfound
    exact ⟨⟨htable, hcached, hs.tokens, hs.returned, hs.users⟩, hfound⟩
  | @verified a user hv =>
    have huser : miaoshaUser.find? a.id = some user := hf user rfl
    have hgenuine := genuine_of_verify huser hv
    refine ⟨⟨hs.table, hs.cached, ?_, ?_, hs.users⟩, huser, hgenuine, by simp⟩
    · intro t su ht
      obtain ⟨vo, u, hd, hu⟩ := hs.tokens t su ht
      exact ⟨vo, u, List.mem_append_left _ hd, hu⟩
    · intro vo t hr
      simp only [List.mem_append, List.mem_singleton, reduceCtorEq, or_false] at hr
      obtain ⟨hd, hu⟩ := hs.returned vo t hr
      exact ⟨List.mem_append_left _ hd, hu⟩
  | @tokenPut a user t =>
    rw [List.append_nil]
    obtain ⟨huser, hgenuine, hdrew⟩ := hf
    have hkey : user.id = some a.id := Table.key_of_find? huser
    refine ⟨⟨hs.table, hs.cached, ?_, hs.returned, hs.users⟩, huser, hgenuine, hdrew⟩
    intro t' su ht
    simp only [Function.update_apply] at ht
    split at ht
    · next he =>
      cases ht
      subst he
      exact ⟨a.loginVo, a.id, hdrew, hkey, hgenuine⟩
    · exact hs.tokens t' su ht
  | @userPut a user t id hid =>
    obtain ⟨huser, hgenuine, hdrew⟩ := hf
    have hkey : user.id = some a.id := Table.key_of_find? huser
    rw [hkey, Option.some.injEq] at hid
    subst hid
    have hlater : ∀ u, (s.miaoShaUser u).isSome →
        (Function.update s.miaoShaUser a.id (some user) u).isSome := by
      intro u hu
      rw [Function.update_apply]
      split
      · rfl
      · exact hu
    refine ⟨⟨hs.table, hs.cached, ?_, ?_, ?_⟩, trivial⟩
    · intro t su ht
      obtain ⟨vo, u, hd, hu⟩ := hs.tokens t su ht
      exact ⟨vo, u, List.mem_append_left _ hd, hu⟩
    · intro vo t' hr
      simp only [List.mem_append, List.mem_singleton, LoginEvent.returned.injEq] at hr
      rcases hr with hr | ⟨rfl, rfl⟩
      · obtain ⟨hd, u, hu, hm⟩ := hs.returned vo t' hr
        exact ⟨List.mem_append_left _ hd, u, hu, hlater u hm⟩
      · exact ⟨List.mem_append_left _ hdrew, a.id, hgenuine, by simp⟩
    · intro u user' hu
      simp only [Function.update_apply] at hu
      split at hu
      · next he =>
        cases hu
        rw [he]
        exact hkey
      · exact hs.users u user' hu

end Genuine

end CfsShop
