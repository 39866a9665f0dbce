/-
The services that create and delete users, roles and permissions, and what
they leave in the two tables that link them.

None of the six touches a link. So a deletion leaves the links of what it
deletes behind, where no query shows them until the id is used again; the
links stay consistent exactly as long as nothing that is linked is deleted
(`linked_iff`). The deletions of departments and employees do clean up
(`Departments`).
-/
import CfsShop.ShiroRealm
import CfsShop.Lib.Run

namespace CfsShop

namespace SysUserService

/-- `insertSelective` writes the columns; `roleList` has none. -/
def createUser (db : SysDb) (sysUser : SysUser) : Option SysDb :=
  (BaseMapper.insert db.sysUser { sysUser with roleList := none }).map fun t => { db with sysUser := t }

def delUser (db : SysDb) (userId : Option String) : SysDb :=
  { db with sysUser := BaseMapper.deleteByPrimaryKey db.sysUser userId }

end SysUserService

namespace SysRoleService

def createRole (db : SysDb) (sysRole : SysRole) : Option SysDb :=
  (BaseMapper.insert db.sysRole { sysRole with permissionList := none }).map fun t => { db with sysRole := t }

def delRole (db : SysDb) (roleId : Option String) : SysDb :=
  { db with sysRole := BaseMapper.deleteByPrimaryKey db.sysRole roleId }

end SysRoleService

namespace SysPermissionService

def addPermission (db : SysDb) (sysPermission : SysPermission) : Option SysDb :=
  (BaseMapper.insert db.sysPermission sysPermission).map fun t => { db with sysPermission := t }

def delPermission (db : SysDb) (permissionId : Option String) : SysDb :=
  { db with sysPermission := BaseMapper.deleteByPrimaryKey db.sysPermission permissionId }

end SysPermissionService

/-- A call of one of the three services. -/
inductive SysCall
  | createUser (sysUser : SysUser)
  | delUser (userId : Option String)
  | createRole (sysRole : SysRole)
  | delRole (roleId : Option String)
  | addPermission (sysPermission : SysPermission)
  | delPermission (permissionId : Option String)

namespace SysDb

/-- The tables after a call. One the database refuses throws and leaves them alone. -/
def call (db : SysDb) : SysCall → SysDb
  | .createUser u => (SysUserService.createUser db u).getD db
  | .delUser id => SysUserService.delUser db id
  | .createRole r => (SysRoleService.createRole db r).getD db
  | .delRole id => SysRoleService.delRole db id
  | .addPermission p => (SysPermissionService.addPermission db p).getD db
  | .delPermission id => SysPermissionService.delPermission db id

/-- Every link mentions only what exists. -/
structure Linked (db : SysDb) : Prop where
  user : ∀ l ∈ db.sysUserRole.rows, db.sysUser.Has l.userLoginId
  role : ∀ l ∈ db.sysUserRole.rows, db.sysRole.Has l.roleId
  role' : ∀ l ∈ db.sysRolePermission.rows, db.sysRole.Has l.roleId
  permission : ∀ l ∈ db.sysRolePermission.rows, db.sysPermission.Has l.permissionId

/-- No link mentions what the call deletes. -/
def Unlinked (db : SysDb) : SysCall → Prop
  | .delUser (some u) => ∀ l ∈ db.sysUserRole.rows, l.userLoginId ≠ u
  | .delRole (some r) => (∀ l ∈ db.sysUserRole.rows, l.roleId ≠ r) ∧ ∀ l ∈ db.sysRolePermission.rows, l.roleId ≠ r
  | .delPermission (some p) => ∀ l ∈ db.sysRolePermission.rows, l.permissionId ≠ p
  | _ => True

instance (db : SysDb) : (c : SysCall) → Decidable (db.Unlinked c)
  | .delUser (some u) => inferInstanceAs (Decidable (∀ l ∈ db.sysUserRole.rows, l.userLoginId ≠ u))
  | .delRole (some r) => inferInstanceAs (Decidable
      ((∀ l ∈ db.sysUserRole.rows, l.roleId ≠ r) ∧ ∀ l ∈ db.sysRolePermission.rows, l.roleId ≠ r))
  | .delPermission (some p) => inferInstanceAs (Decidable
      (∀ l ∈ db.sysRolePermission.rows, l.permissionId ≠ p))
  | .delUser none | .delRole none | .delPermission none | .createUser _ | .createRole _
  | .addPermission _ => inferInstanceAs (Decidable True)

/-- Nobody sees a role with this property on any user. -/
def NoneSeen (db : SysDb) (P : SysRole → Prop) : Prop :=
  ∀ u sysUser, SysUserMapper.getSysUserWithPermission db u = .ok (some sysUser) →
    ∀ roles ∈ sysUser.roleList, ∀ role ∈ roles, ¬ P role

/-- What is created under an id that was free starts with nothing: a user without roles, a role
without holders and without permissions, a permission no role has. -/
def StartsBare (db : SysDb) (c : SysCall) : Prop :=
  match c with
  | .createUser u => ∀ id, u.userLoginId = some id → ¬ db.sysUser.Has id →
      ∃ sysUser, SysUserMapper.getSysUserWithPermission (db.call c) id = .ok (some sysUser) ∧
        sysUser.roleList = some []
  | .createRole r => ∀ id, r.roleId = some id → ¬ db.sysRole.Has id →
      (db.call c).NoneSeen (fun role => role.roleId = some id) ∧
        SysPermissionMapper.getPermissionByRoleId (db.call c) (some id) = []
  | .addPermission p => ∀ id, p.permissionId = some id → ¬ db.sysPermission.Has id →
      (db.call c).NoneSeen fun role => ∃ ps ∈ role.permissionList, ∃ q ∈ ps, q.permissionId = some id
  | _ => True

/-! ## One call -/

/-- Keys only come, except those a deletion names. -/
structure Keeps (db db' : SysDb) : Prop where
  user : ∀ k, db.sysUser.Has k → db'.sysUser.Has k
  role : ∀ k, db.sysRole.Has k → db'.sysRole.Has k
  permission : ∀ k, db.sysPermission.Has k → db'.sysPermission.Has k
  userRole : db'.sysUserRole = db.sysUserRole
  rolePermission : db'.sysRolePermission = db.sysRolePermission

theorem Keeps.refl (db : SysDb) : db.Keeps db :=
  ⟨fun _ h => h, fun _ h => h, fun _ h => h, rfl, rfl⟩

theorem Linked.keeps {db db' : SysDb} (h : db.Linked) (hk : db.Keeps db') : db'.Linked where
  user l hl := hk.user _ (h.user l (hk.userRole ▸ hl))
  role l hl := hk.role _ (h.role l (hk.userRole ▸ hl))
  role' l hl := hk.role _ (h.role' l (hk.rolePermission ▸ hl))
  permission l hl := hk.permission _ (h.permission l (hk.rolePermission ▸ hl))

theorem keeps_createUser (db : SysDb) (u : SysUser) : db.Keeps (db.call (.createUser u)) := by
  simp only [call, SysUserService.createUser]
  cases h : BaseMapper.insert db.sysUser { u with roleList := none } with
  | none => exact .refl db
  | some t => exact ⟨fun k hk => (BaseMapper.has_insert h).2 (.inl hk), fun _ h => h, fun _ h => h, rfl, rfl⟩

theorem keeps_createRole (db : SysDb) (r : SysRole) : db.Keeps (db.call (.createRole r)) := by
  simp only [call, SysRoleService.createRole]
  cases h : BaseMapper.insert db.sysRole { r with permissionList := none } with
  | none => exact .refl db
  | some t => exact ⟨fun _ h => h, fun k hk => (BaseMapper.has_insert h).2 (.inl hk), fun _ h => h, rfl, rfl⟩

theorem keeps_addPermission (db : SysDb) (p : SysPermission) :
    db.Keeps (db.call (.addPermission p)) := by
  simp only [call, SysPermissionService.addPermission]
  cases h : BaseMapper.insert db.sysPermission p with
  | none => exact .refl db
  | some t => exact ⟨fun _ h => h, fun _ h => h, fun k hk => (BaseMapper.has_insert h).2 (.inl hk), rfl, rfl⟩

/-- The links stay consistent with a call exactly when it deletes nothing they mention. -/
theorem Linked.call_iff {db : SysDb} (h : db.Linked) (c : SysCall) :
    (db.call c).Linked ↔ db.Unlinked c := by
  cases c with
  | createUser u => exact iff_of_true (h.keeps (db.keeps_createUser u)) trivial
  | createRole r => exact iff_of_true (h.keeps (db.keeps_createRole r)) trivial
  | addPermission p => exact iff_of_true (h.keeps (db.keeps_addPermission p)) trivial
  | delUser id =>
    cases id with
    | none =>
      simp only [call, SysUserService.delUser, BaseMapper.deleteByPrimaryKey_none]
      exact iff_of_true h trivial
    | some u =>
      simp only [call, SysUserService.delUser, Unlinked]
      constructor
      · intro h' l hl
        exact (BaseMapper.has_deleteByPrimaryKey.1 (h'.user l hl)).2
      · intro hu
        exact ⟨fun l hl => BaseMapper.has_deleteByPrimaryKey.2 ⟨h.user l hl, hu l hl⟩, h.role, h.role',
          h.permission⟩
  | delRole id =>
    cases id with
    | none =>
      simp only [call, SysRoleService.delRole, BaseMapper.deleteByPrimaryKey_none]
      exact iff_of_true h trivial
    | some r =>
      simp only [call, SysRoleService.delRole, Unlinked]
      constructor
      · intro h'
        exact ⟨fun l hl => (BaseMapper.has_deleteByPrimaryKey.1 (h'.role l hl)).2,
          fun l hl => (BaseMapper.has_deleteByPrimaryKey.1 (h'.role' l hl)).2⟩
      · intro h
        obtain ⟨hu, hp⟩ := h
        exact ⟨h.user, fun l hl => BaseMapper.has_deleteByPrimaryKey.2 ⟨h.role l hl, hu l hl⟩,
          fun l hl => BaseMapper.has_deleteByPrimaryKey.2 ⟨h.role' l hl, hp l hl⟩, h.permission⟩
  | delPermission id =>
    cases id with
    | none =>
      simp only [call, SysPermissionService.delPermission, BaseMapper.deleteByPrimaryKey_none]
      exact iff_of_true h trivial
    | some p =>
      simp only [call, SysPermissionService.delPermission, Unlinked]
      constructor
      · intro h' l hl
        exact (BaseMapper.has_deleteByPrimaryKey.1 (h'.permission l hl)).2
      · intro hp
        exact ⟨h.user, h.role, h.role',
          fun l hl => BaseMapper.has_deleteByPrimaryKey.2 ⟨h.permission l hl, hp l hl⟩⟩

/-- Who is seen, is seen with the roles the links give him. -/
theorem roles_of_seen {db : SysDb} {u : String} {sysUser : SysUser}
    (h : SysUserMapper.getSysUserWithPermission db u = .ok (some sysUser)) {roles : List SysRole}
    (hroles : roles ∈ sysUser.roleList) {role : SysRole} (hrole : role ∈ roles) :
    ∃ id, role.roleId = some id ∧ ⟨u, id⟩ ∈ db.sysUserRole.rows ∧
      role.permissionList = some (SysPermissionMapper.getPermissionByRoleId db (some id)) := by
  rw [SysUserMapper.getSysUserWithPermission_eq, Except.ok.injEq, Option.map_eq_some_iff] at h
  obtain ⟨r, -, rfl⟩ := h
  cases hroles
  obtain ⟨r', -, ⟨id, hid, hl⟩, rfl⟩ := SysUserMapper.mem_getSysUserWithPermissionRole.1 hrole
  exact ⟨id, hid, hl, by rw [hid]⟩

/-- While the links are consistent, an id that is free has no links. -/
theorem Linked.startsBare {db : SysDb} (h : db.Linked) (c : SysCall) : db.StartsBare c := by
  cases c with
  | createUser u =>
    intro id hid hfree
    obtain ⟨t, ht, hrows⟩ := BaseMapper.insert_of_free (t := db.sysUser)
      (r := { u with roleList := none }) hid hfree
    have hcall : db.call (.createUser u) = { db with sysUser := t } := by
      simp only [call, SysUserService.createUser, ht, Option.map_some, Option.getD_some]
    have hfind : t.find? id = some { u with roleList := none } :=
      t.find?_of_mem (by simp [hrows]) hid
    refine ⟨_, by rw [hcall, SysUserMapper.getSysUserWithPermission_eq, hfind]; rfl, ?_⟩
    rw [Option.some.injEq, List.eq_nil_iff_forall_not_mem]
    intro role hrole
    obtain ⟨r, -, ⟨rid, -, hl⟩, -⟩ := SysUserMapper.mem_getSysUserWithPermissionRole.1 hrole
    exact hfree (h.user _ hl)
  | createRole r =>
    intro id hid hfree
    have hk := db.keeps_createRole r
    refine ⟨?_, ?_⟩
    · intro u sysUser hu roles hroles role hrole he
      obtain ⟨id', hid', hl, -⟩ := roles_of_seen hu hroles hrole
      rw [he, Option.some.injEq] at hid'
      subst hid'
      exact hfree (h.role _ (hk.userRole ▸ hl))
    · rw [List.eq_nil_iff_forall_not_mem]
      intro q hq
      obtain ⟨-, pid, -, hl⟩ := SysUserMapper.mem_getPermissionByRoleId.1 hq
      exact hfree (h.role' _ (hk.rolePermission ▸ hl))
  | addPermission p =>
    intro id hid hfree u sysUser hu roles hroles role hrole hgranted
    obtain ⟨ps, hps, q, hq, he⟩ := hgranted
    obtain ⟨rid, -, -, hperms⟩ := roles_of_seen hu hroles hrole
    rw [hperms] at hps
    cases hps
    obtain ⟨-, pid, hpid, hl⟩ := SysUserMapper.mem_getPermissionByRoleId.1 hq
    rw [he, Option.some.injEq] at hpid
    subst hpid
    exact hfree (h.permission _ ((db.keeps_addPermission p).rolePermission ▸ hl))
  | _ => trivial

/-- **Deleted identities do not come back with their old rights, exactly when.** From
consistent links, over any calls: the links stay consistent, and all that is created under a
free id starts with nothing, if and only if no call deletes a user, a role or a
permission that a link still mentions. -/
theorem linked_iff (db : SysDb) (h : db.Linked) (cs : List SysCall) :
    Run.Always call Linked db cs ∧ Run.Along call StartsBare db cs ↔ Run.Along call Unlinked db cs := by
  have hiff : Run.Always call Linked db cs ↔ Run.Along call Unlinked db cs :=
    Run.always_iff_along (I := fun _ => True) (fun _ _ _ => trivial)
      (fun db c _ hdb => hdb.call_iff c) trivial h
  constructor
  · intro h
    obtain ⟨hlinked, -⟩ := h
    exact hiff.1 hlinked
  · intro hc
    have hlinked := hiff.2 hc
    exact ⟨hlinked, hlinked.along fun _ c hdb => hdb.startsBare c⟩

theorem one_linked : SysDb.one.Linked := by
  refine ⟨?_, ?_, ?_, ?_⟩ <;> decide

/-- `admin` is deleted and created again: he has his old role from the start. -/
theorem deleted_comes_back :
    SysDb.one.Linked ∧
      ¬ Run.Always call Linked SysDb.one [.delUser (some "admin")] ∧
      ¬ Run.Along call StartsBare SysDb.one
        [.delUser (some "admin"), .createUser { userLoginId := some "admin" }] := by
  refine ⟨one_linked, ?_, ?_⟩
  · intro h
    have := h.last.user ⟨"admin", "boss"⟩ (by decide)
    revert this
    decide
  · intro hx
    obtain ⟨-, h, -⟩ := hx
    obtain ⟨sysUser, hs, hroles⟩ := h "admin" rfl (by decide)
    revert hroles
    cases hs
    decide

/-- A role that was never linked is deleted and made anew. -/
theorem linked_without_deletions :
    Run.Always call Linked SysDb.one
      [.createRole { roleId := some "clerk" }, .delRole (some "clerk"), .createRole { roleId := some "clerk" }] :=
  ((linked_iff SysDb.one one_linked _).2 (by decide)).1

end SysDb

end CfsShop
