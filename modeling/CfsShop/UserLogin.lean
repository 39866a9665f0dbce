/-
`login` as a whole: who gets a token, how everyone else is turned away, and
what a login leaves behind.

A login that fails leaves nothing, since the maps and the cookie are written
last. But it does not always fail with the message it is meant to: nobody looks
at the mobile before `Long.parseLong` does, and nobody at the salt before
`charAt`. `Long.parseLong` also takes what `ValidatorUtil.isMobile` would not.
`proper_iff` has the exact condition.
-/
import CfsShop.UserLookup
import CfsShop.System

namespace CfsShop

namespace ValidatorUtil

/-- `mobile_pattern` on the whole text. -/
def matchesMobile : List Char → Bool
  | '1' :: ds => decide (ds.length = 10) && ds.all Char.isDigit
  | _ => false

def isMobile : Option String → Bool
  | none => false
  | some src => !src.isEmpty && matchesMobile src.toList

end ValidatorUtil

/-- A cookie of the response. -/
structure ResponseCookie extends Cookie where
  maxAge : Int
  path : String
  deriving DecidableEq

/-- What a login writes: the two Redis maps and the cookies of its response. -/
structure LoginSite where
  tokenUser : String → Option SessionUser
  miaoShaUser : Long → Option MiaoshaUser
  cookies : List ResponseCookie

namespace UserServiceImlp

def addCookie (token : String) (sessionUser : SessionUser) (miaoshaUser : MiaoshaUser) :
    Prog UserEx LoginSite Unit := do
  modify fun s => { s with tokenUser := Function.update s.tokenUser token (some sessionUser) }
  match sessionUser.userId with
  -- Redisson refuses a null key.
  | none => throw .nullPointer
  | some id =>
    modify fun s => { s with miaoShaUser := Function.update s.miaoShaUser id (some miaoshaUser) }
  modify fun s =>
    { s with cookies := s.cookies ++ [⟨⟨UserInformation.userToken, token⟩, 3600 * 24 * 2, "/"⟩] }

/-- `login`, where `getById` is what the lookup gives and `token` what `UUIDUtil.uuid` does. -/
def login (md5Hex : List UInt16 → String) (getById : Long → Option MiaoshaUser) (token : String)
    (loginVo : Option LoginVo) : Prog UserEx LoginSite String := do
  match loginVo with
  | none => throw (.msg CodeMsg.SERVER_ERROR)
  | some loginVo =>
    match loginVo.password, loginVo.mobile with
    | some password, some mobile =>
      match Long.parseLong mobile with
      | none => throw .numberFormat
      | some id =>
        match getById id with
        | none => throw (.msg CodeMsg.MOBILE_NOT_EXIST)
        | some miaoshaUser =>
          match Login.verify md5Hex password miaoshaUser with
          | .error e => throw e
          | .ok _ =>
            addCookie token ⟨miaoshaUser.id⟩ miaoshaUser
            return token
    | _, _ => throw (.msg CodeMsg.SERVER_ERROR)

end UserServiceImlp

/-- The site after a login that went well. -/
def LoginSite.loggedIn (s : LoginSite) (token : String) (id : Long) (user : MiaoshaUser) : LoginSite where
  tokenUser := Function.update s.tokenUser token (some ⟨some id⟩)
  miaoShaUser := Function.update s.miaoShaUser id (some user)
  cookies := s.cookies ++ [⟨⟨UserInformation.userToken, token⟩, 3600 * 24 * 2, "/"⟩]

/-! ## The password -/

theorem MD5Util.formPassToDBPass_of_long (md5Hex : List UInt16 → String) (formPass : String)
    {salt : String} (h : 6 ≤ (chars salt).length) :
    ∃ calcPass, formPassToDBPass md5Hex formPass salt = .ok calcPass := by
  have hc : ∀ i, i < 6 → ∃ c, charAt salt i = .ok c := by
    intro i hi
    unfold charAt
    rw [List.getElem?_eq_getElem (Nat.lt_of_lt_of_le hi h)]
    exact ⟨_, rfl⟩
  obtain ⟨c0, h0⟩ := hc 0 (by omega)
  obtain ⟨c2, h2⟩ := hc 2 (by omega)
  obtain ⟨c5, h5⟩ := hc 5 (by omega)
  obtain ⟨c4, h4⟩ := hc 4 (by omega)
  unfold formPassToDBPass
  rw [h0, h2, h5, h4]
  exact ⟨_, rfl⟩

/-- The six `char`s are needed, wherever the first missing one is looked for. -/
theorem MD5Util.formPassToDBPass_of_short (md5Hex : List UInt16 → String) (formPass : String)
    {salt : String} (h : (chars salt).length < 6) :
    formPassToDBPass md5Hex formPass salt = .error .stringIndexOutOfBounds := by
  have h5 : charAt salt 5 = .error .stringIndexOutOfBounds := by
    unfold charAt
    rw [List.getElem?_eq_none (by omega)]
  have hc : ∀ i, (∃ c, charAt salt i = .ok c) ∨ charAt salt i = .error .stringIndexOutOfBounds := by
    intro i
    unfold charAt
    split
    · exact .inl ⟨_, rfl⟩
    · exact .inr rfl
  unfold formPassToDBPass
  rcases hc 0 with ⟨c0, h0⟩ | h0
  · rcases hc 2 with ⟨c2, h2⟩ | h2
    · rw [h0, h2, h5]
      rfl
    · rw [h0, h2]
      rfl
  · rw [h0]
    rfl

namespace Login

variable {md5Hex : List UInt16 → String} {password salt calcPass : String} {user : MiaoshaUser}

theorem verify_of_no_salt (h : user.salt = none) :
    verify md5Hex password user = .error .nullPointer := by
  unfold verify
  rw [h]
  rfl

theorem verify_of_short (h : user.salt = some salt) (hs : (MD5Util.chars salt).length < 6) :
    verify md5Hex password user = .error .stringIndexOutOfBounds := by
  unfold verify
  rw [h]
  simp only [MD5Util.formPassToDBPass_of_short md5Hex password hs]
  rfl

theorem verify_of_calcPass (h : user.salt = some salt)
    (hc : MD5Util.formPassToDBPass md5Hex password salt = .ok calcPass) :
    verify md5Hex password user =
      if user.password = some calcPass then .ok () else .error (.msg CodeMsg.PASSWORD_ERROR) := by
  unfold verify
  rw [h]
  simp only [hc]
  rfl

end Login

namespace UserServiceImlp

variable {md5Hex : List UInt16 → String} {token : String} {s : LoginSite}
variable {miaoshaUser : Table MiaoshaUser Long MiaoshaUser.id}

theorem exec_addCookie {id : Long} {user : MiaoshaUser} :
    (addCookie token ⟨some id⟩ user).exec s = (.ok (), s.loggedIn token id user) := rfl

/-- The lookup, the password and the maps of a login whose mobile is a number. -/
theorem exec_login {loginVo : LoginVo} {mobile password : String} {id : Long}
    (hm : loginVo.mobile = some mobile) (hp : loginVo.password = some password)
    (hid : Long.parseLong mobile = some id) :
    (login md5Hex miaoshaUser.find? token (some loginVo)).exec s =
      match miaoshaUser.find? id with
      | none => (.error (.msg CodeMsg.MOBILE_NOT_EXIST), s)
      | some user =>
        match Login.verify md5Hex password user with
        | .error e => (.error e, s)
        | .ok _ => (.ok token, s.loggedIn token id user) := by
  simp only [login, hm, hp, hid]
  cases hrow : miaoshaUser.find? id with
  | none => rfl
  | some user =>
    have hkey : user.id = some id := Table.key_of_find? hrow
    cases hv : Login.verify md5Hex password user with
    | error e =>
      simp only [hv]
      rfl
    | ok u =>
      simp only [hkey, hv]
      rw [Prog.exec_bind, exec_addCookie]
      rfl

/-! ## Who gets a token -/

variable (md5Hex miaoshaUser)

/-- A mobile number as declared, the user of that number and the user's password. -/
def Valid (loginVo : Option LoginVo) : Prop :=
  ∃ vo ∈ loginVo, ValidatorUtil.isMobile vo.mobile = true ∧ ∃ u, Genuine md5Hex miaoshaUser vo u

/-- How a login that was begun at `s` should end. -/
structure Proper (loginVo : Option LoginVo) (s : LoginSite) (r : Except UserEx String × LoginSite) :
    Prop where
  accepts : (∃ token, r.1 = .ok token) ↔ Valid md5Hex miaoshaUser loginVo
  throws : ∀ e, r.1 = .error e → ∃ codeMsg, e = .msg codeMsg
  unchanged : ∀ e, r.1 = .error e → r.2 = s
  added : ∀ token, r.1 = .ok token → s.tokenUser token = none ∧
    ∃ vo ∈ loginVo, ∃ u, Genuine md5Hex miaoshaUser vo u ∧ r.2.tokenUser token = some ⟨some u⟩ ∧
      (∀ t, t ≠ token → r.2.tokenUser t = s.tokenUser t) ∧
      (∀ u', u' ≠ u → r.2.miaoShaUser u' = s.miaoShaUser u')

/-- The mobile is a number; if it is a user's, the user has a salt of six `char`s, and if the
password is the user's too, the number was written as a mobile number is. -/
def Foreseen (loginVo : Option LoginVo) : Prop :=
  ∀ vo ∈ loginVo, ∀ mobile password, vo.mobile = some mobile → vo.password = some password →
    ∃ id, Long.parseLong mobile = some id ∧ ∀ user, miaoshaUser.find? id = some user →
      ∃ salt, user.salt = some salt ∧ 6 ≤ (MD5Util.chars salt).length ∧
        (ValidatorUtil.isMobile (some mobile) = true ∨
          ∀ calcPass, MD5Util.formPassToDBPass md5Hex password salt = .ok calcPass →
            user.password ≠ some calcPass)

variable {md5Hex miaoshaUser}

/-- A message, and nothing written. -/
theorem proper_msg {loginVo : Option LoginVo} {codeMsg : CodeMsg}
    (h : ¬ Valid md5Hex miaoshaUser loginVo) :
    Proper md5Hex miaoshaUser loginVo s (.error (.msg codeMsg), s) where
  accepts := by
    constructor
    · intro hx
      obtain ⟨token, he⟩ := hx
      cases he
    · intro hx
      exact absurd hx h
  throws := fun e he => by
    cases he
    exact ⟨codeMsg, rfl⟩
  unchanged := fun _ _ => rfl
  added := fun _ he => by cases he

/-- Any other exception is out of order. -/
theorem not_proper_of_error {loginVo : Option LoginVo} {e : UserEx} {s' : LoginSite}
    (he : ∀ codeMsg, e ≠ .msg codeMsg) :
    ¬ Proper md5Hex miaoshaUser loginVo s (.error e, s') := by
  intro h
  obtain ⟨codeMsg, hc⟩ := h.throws e rfl
  exact he codeMsg hc

section

variable {vo : LoginVo} {mobile password salt calcPass : String} {id : Long} {user : MiaoshaUser}

/-- Whoever a login vouches for is the one its mobile names. -/
theorem valid_iff (hm : vo.mobile = some mobile) (hp : vo.password = some password)
    (hid : Long.parseLong mobile = some id) :
    Valid md5Hex miaoshaUser (some vo) ↔ ValidatorUtil.isMobile (some mobile) = true ∧
      ∃ user salt calcPass, miaoshaUser.find? id = some user ∧ user.salt = some salt ∧
        MD5Util.formPassToDBPass md5Hex password salt = .ok calcPass ∧
        user.password = some calcPass := by
  unfold Valid Genuine
  simp [hm, hp, hid]

theorem foreseen_iff (hm : vo.mobile = some mobile) (hp : vo.password = some password) :
    Foreseen md5Hex miaoshaUser (some vo) ↔
      ∃ id, Long.parseLong mobile = some id ∧ ∀ user, miaoshaUser.find? id = some user →
        ∃ salt, user.salt = some salt ∧ 6 ≤ (MD5Util.chars salt).length ∧
          (ValidatorUtil.isMobile (some mobile) = true ∨
            ∀ calcPass, MD5Util.formPassToDBPass md5Hex password salt = .ok calcPass →
              user.password ≠ some calcPass) := by
  unfold Foreseen
  simp [hm, hp]

/-- A user who was found is let in with the right password; whether that was right is a question
of the mobile. -/
theorem proper_loggedIn_iff (hfresh : s.tokenUser token = none) (hm : vo.mobile = some mobile)
    (hp : vo.password = some password) (hid : Long.parseLong mobile = some id)
    (hrow : miaoshaUser.find? id = some user) (hsalt : user.salt = some salt)
    (hc : MD5Util.formPassToDBPass md5Hex password salt = .ok calcPass)
    (hpass : user.password = some calcPass) :
    Proper md5Hex miaoshaUser (some vo) s (.ok token, s.loggedIn token id user) ↔
      ValidatorUtil.isMobile (some mobile) = true := by
  have hvalid : Valid md5Hex miaoshaUser (some vo) ↔ ValidatorUtil.isMobile (some mobile) = true := by
    rw [valid_iff hm hp hid]
    exact and_iff_left ⟨user, salt, calcPass, hrow, hsalt, hc, hpass⟩
  constructor
  · intro h
    rw [← hvalid, ← h.accepts]
    exact ⟨token, rfl⟩
  · intro h
    refine ⟨⟨fun _ => hvalid.2 h, fun _ => ⟨token, rfl⟩⟩, fun e he => ?_, fun e he => ?_, ?_⟩
    · cases he
    · cases he
    · intro t he
      cases he
      refine ⟨hfresh, vo, rfl, id, ?_, ?_, ?_, ?_⟩
      · exact ⟨mobile, password, user, salt, calcPass, hm, hid, hp, hrow, hsalt, hc, hpass⟩
      · exact Function.update_self _ _ _
      · intro t ht
        exact Function.update_of_ne ht _ _
      · intro u hu
        exact Function.update_of_ne hu _ _

/-- A login whose mobile is a number, by the row of that number. -/
theorem proper_iff_of_number (hfresh : s.tokenUser token = none) (hm : vo.mobile = some mobile)
    (hp : vo.password = some password) (hid : Long.parseLong mobile = some id) :
    Proper md5Hex miaoshaUser (some vo) s
        ((login md5Hex miaoshaUser.find? token (some vo)).exec s) ↔
      ∀ user, miaoshaUser.find? id = some user →
        ∃ salt, user.salt = some salt ∧ 6 ≤ (MD5Util.chars salt).length ∧
          (ValidatorUtil.isMobile (some mobile) = true ∨
            ∀ calcPass, MD5Util.formPassToDBPass md5Hex password salt = .ok calcPass →
              user.password ≠ some calcPass) := by
  rw [exec_login hm hp hid]
  cases hrow : miaoshaUser.find? id with
  | none =>
    refine iff_of_true (proper_msg ?_) (by simp)
    rw [valid_iff hm hp hid, hrow]
    simp
  | some user =>
    simp only [Option.some.injEq, forall_eq']
    cases hsalt : user.salt with
    | none =>
      rw [Login.verify_of_no_salt hsalt]
      exact iff_of_false (not_proper_of_error (by simp)) (by simp)
    | some salt =>
      simp only [Option.some.injEq, exists_eq_left']
      rcases Nat.lt_or_ge (MD5Util.chars salt).length 6 with hshort | hlong
      · rw [Login.verify_of_short hsalt hshort]
        exact iff_of_false (not_proper_of_error (by simp)) (by omega)
      · obtain ⟨calcPass, hc⟩ := MD5Util.formPassToDBPass_of_long md5Hex password hlong
        rw [Login.verify_of_calcPass hsalt hc]
        simp only [hc, Except.ok.injEq, forall_eq', hlong, true_and]
        by_cases hpass : user.password = some calcPass
        · rw [if_pos hpass, proper_loggedIn_iff hfresh hm hp hid hrow hsalt hc hpass]
          simp [hpass]
        · rw [if_neg hpass]
          refine iff_of_true (proper_msg ?_) (.inr hpass)
          rw [valid_iff hm hp hid, hrow]
          simp [hsalt, hc, hpass]

theorem exec_login_of_null (h : vo.password = none ∨ vo.mobile = none) :
    (login md5Hex miaoshaUser.find? token (some vo)).exec s =
      (.error (.msg CodeMsg.SERVER_ERROR), s) := by
  cases hp : vo.password with
  | none =>
    simp only [login, hp]
    rfl
  | some password =>
    have hm : vo.mobile = none := h.resolve_left (by simp [hp])
    simp only [login, hp, hm]
    rfl

theorem exec_login_of_no_number (hm : vo.mobile = some mobile) (hp : vo.password = some password)
    (hid : Long.parseLong mobile = none) :
    (login md5Hex miaoshaUser.find? token (some vo)).exec s = (.error .numberFormat, s) := by
  simp only [login, hm, hp, hid]
  rfl

theorem proper_iff_of_null (h : vo.password = none ∨ vo.mobile = none) :
    Proper md5Hex miaoshaUser (some vo) s
        ((login md5Hex miaoshaUser.find? token (some vo)).exec s) ↔
      Foreseen md5Hex miaoshaUser (some vo) := by
  rw [exec_login_of_null h]
  refine iff_of_true (proper_msg ?_) ?_
  · rcases h with h | h <;> simp [Valid, Genuine, h]
  · rcases h with h | h <;> simp [Foreseen, h]

end

/-- **A login ends as it should exactly where everything it reads was foreseen.** -/
theorem proper_iff (md5Hex : List UInt16 → String)
    (miaoshaUser : Table MiaoshaUser Long MiaoshaUser.id) (loginVo : Option LoginVo) (s : LoginSite)
    (token : String) (hfresh : s.tokenUser token = none) :
    Proper md5Hex miaoshaUser loginVo s
        ((login md5Hex miaoshaUser.find? token loginVo).exec s) ↔
      Foreseen md5Hex miaoshaUser loginVo := by
  cases loginVo with
  | none =>
    refine iff_of_true (proper_msg ?_) ?_
    · intro h
      obtain ⟨vo, hvo, -⟩ := h
      cases hvo
    · intro vo hvo
      cases hvo
  | some vo =>
    cases hp : vo.password with
    | none => exact proper_iff_of_null (.inl hp)
    | some password =>
      cases hm : vo.mobile with
      | none => exact proper_iff_of_null (.inr hm)
      | some mobile =>
        rw [foreseen_iff hm hp]
        cases hid : Long.parseLong mobile with
        | none =>
          rw [exec_login_of_no_number hm hp hid]
          exact iff_of_false (not_proper_of_error (by simp)) (by simp)
        | some id =>
          rw [proper_iff_of_number hfresh hm hp hid]
          simp only [Option.some.injEq, exists_eq_left']

/-- The table with the first user of the dump only. -/
def firstUser : Table MiaoshaUser Long MiaoshaUser.id := ⟨[OneSale.user], List.pairwise_singleton _ _⟩

/-- Nobody is logged in. -/
def nobody : LoginSite := ⟨fun _ => none, fun _ => none, []⟩

theorem proper_first_user :
    Proper OneSale.md5Hex firstUser (some OneSale.loginVo) nobody
      ((login OneSale.md5Hex firstUser.find? "t" (some OneSale.loginVo)).exec nobody) := by
  refine (proper_iff _ _ _ _ _ rfl).2 ?_
  intro vo hvo mobile password hm hp
  obtain rfl : OneSale.loginVo = vo := by simpa using hvo
  cases hm
  cases hp
  refine ⟨13000000000, by decide, ?_⟩
  intro user huser
  obtain rfl : OneSale.user = user := Option.some.inj huser
  exact ⟨"1a2b3c", rfl, by decide, .inl (by decide)⟩

/-- What is not a number is not met with a message. -/
theorem not_proper_letters :
    ¬ Proper OneSale.md5Hex firstUser (some ⟨some "abc", some "x"⟩) nobody
      ((login OneSale.md5Hex firstUser.find? "t" (some ⟨some "abc", some "x"⟩)).exec nobody) := by
  intro h
  obtain ⟨codeMsg, he⟩ := h.throws .numberFormat (by decide)
  cases he

end UserServiceImlp

/-! ## Step by step -/

namespace Login

variable {md5Hex : List UInt16 → String} {token : String}

/-- One login's steps, while the others rest. -/
def Alone (md5Hex : List UInt16 → String) (token : String) :
    Accounts × Login → Accounts × Login → Prop :=
  Relation.ReflTransGen fun a b => ∃ es, a.2.step md5Hex false token a.1 = some (b.1, b.2, es)

/-- A lookup's steps are the login's. -/
theorem alone_lookup {a : Accounts} {t : Attempt} {x y : UserStore × Lookup}
    (h : Lookup.Alone t.id x y) :
    Alone md5Hex token ({ a with users := x.1 }, getById t x.2)
      ({ a with users := y.1 }, getById t y.2) := by
  induction h with
  | refl => exact .refl
  | @tail y z _ hstep ih =>
    refine ih.tail ⟨[], ?_⟩
    obtain ⟨u, f⟩ := y
    obtain ⟨u', f'⟩ := z
    simp only at hstep
    cases f with
    | returned => cases hstep
    | _ => simp only [step, hstep]

/-- With the right password, the login writes both maps. -/
theorem alone_verified {a : Accounts} {t : Attempt} {user : MiaoshaUser} {u : Unit}
    (hv : verify md5Hex t.password user = .ok u) (hkey : user.id = some t.id) :
    Alone md5Hex token (a, getById t (.returned (.ok (some user))))
      ({ a with
          tokenUser := Function.update a.tokenUser token (some ⟨some t.id⟩)
          miaoShaUser := Function.update a.miaoShaUser t.id (some user) }, returned token) := by
  have hput : Alone md5Hex token (a, getById t (.returned (.ok (some user))))
      (a, putToken t user token) := .single ⟨[.drew t.loginVo token], by simp only [step, hv]⟩
  have htoken := hput.tail (c := (_, putUser t user token)) ⟨[], rfl⟩
  refine htoken.tail ⟨[.returned t.loginVo token], ?_⟩
  simp only [step, hkey]

/-- Where a login stands that ended so. -/
def ended (users : UserStore) : Except UserEx String × LoginSite → Accounts × Login
  | (.ok token, s) => (⟨users, s.tokenUser, s.miaoShaUser⟩, returned token)
  | (.error e, s) => (⟨users, s.tokenUser, s.miaoShaUser⟩, threw e)

open UserServiceImlp in
/-- Step by step, a login does what the method as a whole does, if the lookup is the table's. -/
theorem alone_login {a : Accounts} (hfree : a.users.locked = false)
    (hlooks : ∀ id, LooksUp a.users.miaoshaUser id a.users) (cookies : List ResponseCookie)
    (loginVo : Option LoginVo) :
    ∃ users, Alone md5Hex token (a, start loginVo)
      (ended users ((login md5Hex a.users.miaoshaUser.find? token loginVo).exec
        ⟨a.tokenUser, a.miaoShaUser, cookies⟩)) := by
  have hbegin : Alone md5Hex token (a, start loginVo) (a, begin loginVo) := .single ⟨[], rfl⟩
  unfold begin at hbegin
  split at hbegin
  · exact ⟨a.users, hbegin⟩
  · next vo =>
    split at hbegin
    · next password mobile hp hm =>
      split at hbegin
      · next id hid =>
        rw [exec_login hm hp hid]
        have hlookup := hbegin.trans (alone_lookup (Lookup.alone_getById hfree))
        rw [(hlooks id).1] at hlookup
        refine ⟨((UserServiceImlp.getById id).exec a.users).2, ?_⟩
        cases hrow : a.users.miaoshaUser.find? id with
        | none =>
          rw [hrow] at hlookup
          exact hlookup.tail ⟨[], rfl⟩
        | some user =>
          have hkey : user.id = some id := Table.key_of_find? hrow
          rw [hrow] at hlookup
          cases hv : verify md5Hex password user with
          | error e => exact hlookup.tail ⟨[], by simp only [step, hv]; rfl⟩
          | ok u =>
            simp only [hv]
            exact hlookup.trans (alone_verified hv hkey)
      · next hid =>
        rw [exec_login_of_no_number hm hp hid]
        exact ⟨a.users, hbegin⟩
    · next hnull =>
      have hnone : vo.password = none ∨ vo.mobile = none := by
        cases hp : vo.password with
        | none => exact .inl rfl
        | some password =>
          cases hm : vo.mobile with
          | none => exact .inr rfl
          | some mobile => exact (hnull password mobile hp hm).elim
      rw [exec_login_of_null hnone]
      exact ⟨a.users, hbegin⟩

end Login

end CfsShop
