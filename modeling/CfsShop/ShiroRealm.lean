/-
`UserShiroRealm`: who an admin is, and what he may do.

`doGetAuthenticationInfo` makes the principal with `getSysUser`, whose result
type fills the columns of `sys_user` and so never `roleList`.
`doGetAuthorizationInfo` then walks that list. It throws for everyone
(`never_authorized`). With the query written for the purpose, the same walk
gives exactly what the tables grant (`authorized_withPermission`).
-/
import CfsShop.AdminMapper
import Mathlib.Data.Finset.Insert

namespace CfsShop

/-- `SimpleAuthenticationInfo`, less the name of the realm. -/
structure AuthenticationInfo where
  principal : SysUser
  credentials : Option String
  deriving DecidableEq

/-- `SimpleAuthorizationInfo`: two sets of strings. -/
structure AuthorizationInfo where
  roles : Finset (Option String) := ∅
  stringPermissions : Finset (Option String) := ∅
  deriving DecidableEq

namespace AuthorizationInfo

def addRole (info : AuthorizationInfo) (role : Option String) : AuthorizationInfo :=
  { info with roles := insert role info.roles }

def addStringPermission (info : AuthorizationInfo) (p : SysPermission) : AuthorizationInfo :=
  { info with stringPermissions := insert p.permissionId info.stringPermissions }

end AuthorizationInfo

namespace UserShiroRealm

def doGetAuthenticationInfo (camel : Bool) (db : SysDb) (userLoginId : Option String) :
    Except Ex (Option AuthenticationInfo) :=
  match userLoginId with
  | none => .ok none
  | some userLoginId => do
    match ← SysUserMapper.getSysUser camel db userLoginId with
    | none => return none
    | some sysUser => return some { principal := sysUser, credentials := sysUser.password }

/-- One round of the outer loop. -/
def addRole (info : AuthorizationInfo) (role : SysRole) : Except Ex AuthorizationInfo :=
  match role.permissionList with
  | none => .error .nullPointer
  | some ps => .ok (ps.foldl .addStringPermission (info.addRole role.roleId))

def doGetAuthorizationInfo (sysUser : SysUser) : Except Ex AuthorizationInfo :=
  match sysUser.roleList with
  | none => .error .nullPointer
  | some roles => roles.foldlM addRole {}

end UserShiroRealm

/-! ## What the tables grant -/

namespace SysDb

/-- The user has the role, and the role exists. -/
def HasRole (db : SysDb) (u r : String) : Prop := db.sysRole.Has r ∧ ⟨u, r⟩ ∈ db.sysUserRole.rows

instance (db : SysDb) (u r : String) : Decidable (db.HasRole u r) := inferInstanceAs (Decidable (_ ∧ _))

/-- The role has the permission, and the permission exists. -/
def HasPermission (db : SysDb) (r p : String) : Prop :=
  db.sysPermission.Has p ∧ ⟨r, p⟩ ∈ db.sysRolePermission.rows

/-- The roles and the permissions of the user, and nothing else. -/
structure Grants (db : SysDb) (u : String) (info : AuthorizationInfo) : Prop where
  roles : ∀ r, r ∈ info.roles ↔ ∃ role, r = some role ∧ db.HasRole u role
  permissions : ∀ p, p ∈ info.stringPermissions ↔
    ∃ role permission, p = some permission ∧ db.HasRole u role ∧ db.HasPermission role permission

end SysDb

/-- Asked about the principal, the realm returns exactly what the tables grant the user. -/
def Authorized (db : SysDb) (u : String) (principal : SysUser) : Prop :=
  ∃ info, UserShiroRealm.doGetAuthorizationInfo principal = .ok info ∧ db.Grants u info

/-! ## The query that fills the roles -/

namespace SysUserMapper

theorem mem_getSysUserWithPermissionRole {db : SysDb} {u : String} {role : SysRole} :
    role ∈ getSysUserWithPermissionRole db (some u) ↔
      ∃ r ∈ db.sysRole.rows, (∃ id, r.roleId = some id ∧ ⟨u, id⟩ ∈ db.sysUserRole.rows) ∧
        role = { r with
          permissionList := some (SysPermissionMapper.getPermissionByRoleId db r.roleId) } := by
  simp only [getSysUserWithPermissionRole, List.mem_map, List.mem_filter, List.any_eq_true,
    Bool.and_eq_true, decide_eq_true_eq, Option.some.injEq]
  constructor
  · intro h
    obtain ⟨r, ⟨hr, l, hl, rfl, hid⟩, rfl⟩ := h
    exact ⟨r, hr, ⟨l.roleId, hid.symm, hl⟩, rfl⟩
  · intro h
    obtain ⟨r, hr, ⟨id, hid, hl⟩, rfl⟩ := h
    exact ⟨r, ⟨hr, ⟨u, id⟩, hl, rfl, hid.symm⟩, rfl⟩

theorem mem_getPermissionByRoleId {db : SysDb} {r : String} {p : SysPermission} :
    p ∈ SysPermissionMapper.getPermissionByRoleId db (some r) ↔
      p ∈ db.sysPermission.rows ∧ ∃ id, p.permissionId = some id ∧ ⟨r, id⟩ ∈ db.sysRolePermission.rows := by
  simp only [SysPermissionMapper.getPermissionByRoleId, List.mem_filter, List.any_eq_true,
    Bool.and_eq_true, decide_eq_true_eq, Option.some.injEq]
  refine and_congr_right fun _ => ?_
  constructor
  · intro h
    obtain ⟨l, hl, rfl, hid⟩ := h
    exact ⟨l.permissionId, hid.symm, hl⟩
  · intro h
    obtain ⟨id, hid, hl⟩ := h
    exact ⟨⟨r, id⟩, hl, rfl, hid.symm⟩

/-- The user, with his roles, or nobody. -/
theorem getSysUserWithPermission_eq (db : SysDb) (u : String) :
    getSysUserWithPermission db u = .ok ((db.sysUser.find? u).map fun r =>
      { r with roleList := some (getSysUserWithPermissionRole db (some u)) }) := by
  rw [getSysUserWithPermission, Table.select_eq, selectOne_toList]
  cases hr : db.sysUser.find? u with
  | none => rfl
  | some r =>
    have hid := Table.key_of_find? hr
    simp only [Except.map, Option.map_some, hid]

end SysUserMapper

namespace UserShiroRealm

theorem foldl_addStringPermission (ps : List SysPermission) (info : AuthorizationInfo) :
    (ps.foldl .addStringPermission info).roles = info.roles ∧
      ∀ p, p ∈ (ps.foldl .addStringPermission info).stringPermissions ↔
        p ∈ info.stringPermissions ∨ ∃ q ∈ ps, p = q.permissionId := by
  induction ps generalizing info with
  | nil => simp
  | cons q ps ih =>
    obtain ⟨hroles, hperms⟩ := ih (info.addStringPermission q)
    refine ⟨hroles, ?_⟩
    intro p
    rw [List.foldl_cons, hperms, AuthorizationInfo.addStringPermission, Finset.mem_insert,
      List.exists_mem_cons_iff]
    tauto

/-- The walk over roles that all have their permissions. -/
theorem foldlM_addRole {roles : List SysRole} (h : ∀ r ∈ roles, r.permissionList.isSome)
    (info : AuthorizationInfo) :
    ∃ info', roles.foldlM addRole info = .ok info' ∧
      (∀ r, r ∈ info'.roles ↔ r ∈ info.roles ∨ ∃ role ∈ roles, r = role.roleId) ∧
      ∀ p, p ∈ info'.stringPermissions ↔ p ∈ info.stringPermissions ∨
        ∃ role ∈ roles, ∃ ps ∈ role.permissionList, ∃ q ∈ ps, p = q.permissionId := by
  induction roles generalizing info with
  | nil => exact ⟨info, rfl, by simp, by simp⟩
  | cons role roles ih =>
    rw [List.forall_mem_cons] at h
    obtain ⟨ps, hps⟩ := Option.isSome_iff_exists.1 h.1
    obtain ⟨hroles, hperms⟩ := foldl_addStringPermission ps (info.addRole role.roleId)
    obtain ⟨info', he, hroles', hperms'⟩ := ih h.2 (ps.foldl .addStringPermission (info.addRole role.roleId))
    refine ⟨info', ?_, ?_, ?_⟩
    · rw [List.foldlM_cons, addRole, hps]
      exact he
    · intro r
      rw [hroles', hroles, AuthorizationInfo.addRole, Finset.mem_insert, List.exists_mem_cons_iff]
      tauto
    · intro p
      rw [hperms', hperms, List.exists_mem_cons_iff, hps]
      simp only [Option.mem_some_iff, exists_eq_left']
      exact or_assoc

/-- The walk over the roles the query has filled gives exactly what the tables grant. -/
theorem authorized_withPermission {db : SysDb} {u : String} {sysUser : SysUser}
    (h : SysUserMapper.getSysUserWithPermission db u = .ok (some sysUser)) : Authorized db u sysUser := by
  rw [SysUserMapper.getSysUserWithPermission_eq, Except.ok.injEq, Option.map_eq_some_iff] at h
  obtain ⟨r, -, rfl⟩ := h
  have hfilled : ∀ role ∈ SysUserMapper.getSysUserWithPermissionRole db (some u),
      role.permissionList.isSome := by
    intro role hrole
    obtain ⟨r', -, -, rfl⟩ := SysUserMapper.mem_getSysUserWithPermissionRole.1 hrole
    rfl
  obtain ⟨info, he, hroles, hperms⟩ := foldlM_addRole hfilled {}
  refine ⟨info, he, ?_, ?_⟩
  · intro id
    rw [hroles]
    simp only [Finset.notMem_empty, false_or]
    constructor
    · intro h
      obtain ⟨role, hrole, rfl⟩ := h
      obtain ⟨r', hr', ⟨id, hid, hl⟩, rfl⟩ := SysUserMapper.mem_getSysUserWithPermissionRole.1 hrole
      exact ⟨id, hid, ⟨r', hr', hid⟩, hl⟩
    · intro h
      obtain ⟨id, rfl, ⟨r', hr', hid⟩, hl⟩ := h
      exact ⟨_, SysUserMapper.mem_getSysUserWithPermissionRole.2 ⟨r', hr', ⟨id, hid, hl⟩, rfl⟩, hid.symm⟩
  · intro p
    rw [hperms]
    simp only [Finset.notMem_empty, false_or]
    constructor
    · intro h
      obtain ⟨role, hrole, ps, hps, q, hq, rfl⟩ := h
      obtain ⟨r', hr', ⟨id, hid, hl⟩, rfl⟩ := SysUserMapper.mem_getSysUserWithPermissionRole.1 hrole
      cases hps
      rw [hid, SysUserMapper.mem_getPermissionByRoleId] at hq
      obtain ⟨hq, pid, hpid, hlink⟩ := hq
      exact ⟨id, pid, hpid, ⟨⟨r', hr', hid⟩, hl⟩, ⟨q, hq, hpid⟩, hlink⟩
    · intro h
      obtain ⟨id, pid, rfl, ⟨⟨r', hr', hid⟩, hl⟩, ⟨q, hq, hpid⟩, hlink⟩ := h
      refine ⟨_, SysUserMapper.mem_getSysUserWithPermissionRole.2 ⟨r', hr', ⟨id, hid, hl⟩, rfl⟩, _, rfl, q,
        ?_, hpid.symm⟩
      rw [hid]
      exact SysUserMapper.mem_getPermissionByRoleId.2 ⟨hq, pid, hpid, hlink⟩

/-! ## The query the realm uses -/

/-- No row comes back with its roles. -/
theorem roleList_getSysUser {camel : Bool} {db : SysDb} {u : String} {sysUser : SysUser}
    (h : SysUserMapper.getSysUser camel db u = .ok (some sysUser)) : sysUser.roleList = none := by
  rw [SysUserMapper.getSysUser, Table.select_eq, selectOne_toList] at h
  simp only [Except.map, Except.ok.injEq, Option.bind_eq_some_iff] at h
  obtain ⟨r, -, hr⟩ := h
  unfold SysUserMapper.autoMap at hr
  rw [Option.ite_none_left_eq_some, Option.some.injEq] at hr
  rw [← hr.2]

theorem principal_of_authentication {camel : Bool} {db : SysDb} {u : String} {info : AuthenticationInfo}
    (h : doGetAuthenticationInfo camel db (some u) = .ok (some info)) :
    SysUserMapper.getSysUser camel db u = .ok (some info.principal) := by
  simp only [doGetAuthenticationInfo] at h
  rcases hu : SysUserMapper.getSysUser camel db u with e | (_ | sysUser)
  · rw [hu] at h
    cases h
  · rw [hu] at h
    cases h
  · rw [hu] at h
    cases h
    rfl

/-- **Nobody is ever authorized.** Whatever the tables hold: for every user the realm
authenticates, asking it what he may do ends with a null pointer, not with what the tables
grant him. -/
theorem never_authorized (camel : Bool) (db : SysDb) (u : String) (info : AuthenticationInfo)
    (h : doGetAuthenticationInfo camel db (some u) = .ok (some info)) :
    doGetAuthorizationInfo info.principal = .error .nullPointer ∧ ¬ Authorized db u info.principal := by
  have hnull : doGetAuthorizationInfo info.principal = .error .nullPointer := by
    rw [doGetAuthorizationInfo, roleList_getSysUser (principal_of_authentication h)]
  refine ⟨hnull, ?_⟩
  intro h
  obtain ⟨a, ha, -⟩ := h
  rw [hnull] at ha
  cases ha

end UserShiroRealm

/-- One user, `admin`, with the role `boss`, which has the permission `all`. -/
def SysDb.one : SysDb where
  sysUser := ⟨[{ userLoginId := some "admin", password := some "fadp" }], by simp⟩
  sysRole := ⟨[{ roleId := some "boss" }], by simp⟩
  sysPermission := ⟨[{ permissionId := some "all" }], by simp⟩
  sysUserRole := ⟨[⟨"admin", "boss"⟩], by simp⟩
  sysRolePermission := ⟨[⟨"boss", "all"⟩], by simp⟩

namespace UserShiroRealm

/-- The principal of `admin`, as the realm makes it. -/
def adminInfo : AuthenticationInfo where
  principal := { userLoginId := some "admin", password := some "fadp" }
  credentials := some "fadp"

/-- `admin` logs in and has a role; what he may do the realm cannot say. -/
theorem admin_has_no_rights :
    doGetAuthenticationInfo true SysDb.one (some "admin") = .ok (some adminInfo) ∧
      SysDb.one.HasRole "admin" "boss" ∧
      doGetAuthorizationInfo adminInfo.principal = .error .nullPointer ∧
      ¬ Authorized SysDb.one "admin" adminInfo.principal := by
  refine ⟨by decide, by decide, by decide, ?_⟩
  intro h
  obtain ⟨a, ha, -⟩ := h
  cases ha

theorem admin_not_authorized :
    doGetAuthenticationInfo true SysDb.one (some "admin") = .ok (some adminInfo) ∧
      ¬ Authorized SysDb.one "admin" adminInfo.principal :=
  ⟨by decide, (never_authorized true SysDb.one "admin" adminInfo (by decide)).2⟩

end UserShiroRealm

end CfsShop
