/-
The tables behind the admin pages and the statements on them: the generic
mapper (`com.github.mapper`, one definition for all tables) and the queries of
the XML files.

The schema of these tables is not in the repository. They are taken to have
the primary keys the beans declare with `@Id` and nothing more, so no
foreign keys. A primary key is never NULL: an insert without one is refused,
like an insert of a key that is taken, and a refused statement throws and
changes nothing (`none` below).
-/
import CfsShop.Mapper

namespace CfsShop

/-! ## Beans -/

structure SysPermission where
  permissionId : Option String
  description : Option String := none
  deriving DecidableEq, Repr

structure SysRole where
  roleId : Option String
  roleName : Option String := none
  /-- `@Transient`: no column. -/
  permissionList : Option (List SysPermission) := none
  deriving DecidableEq, Repr

structure SysUser where
  userLoginId : Option String
  userName : Option String := none
  sex : Option String := none
  password : Option String := none
  /-- `@Transient`: no column. -/
  roleList : Option (List SysRole) := none
  deriving DecidableEq, Repr

/-- A row of `sys_user_role`. -/
structure SysUserRole where
  userLoginId : String
  roleId : String
  deriving DecidableEq, Repr

/-- A row of `sys_role_permission`. -/
structure SysRolePermission where
  roleId : String
  permissionId : String
  deriving DecidableEq, Repr

structure CmDepartment where
  departmentId : Option String
  departmentName : Option String := none
  departmentDescription : Option String := none
  deriving DecidableEq, Repr

structure CmEmployee where
  employeeId : Option String
  eSex : Option String := none
  eAge : Option String := none
  eName : Option String := none
  deriving DecidableEq, Repr

/-- A row of `cm_department_employee`, and the bean its statements take. -/
structure CmDepartmentEmployee where
  departmentId : Option String
  employeeId : Option String
  deriving DecidableEq, Repr

/-- Both columns are `@Id`. -/
def CmDepartmentEmployee.key (r : CmDepartmentEmployee) : Option (String × String) :=
  match r.departmentId, r.employeeId with
  | some d, some e => some (d, e)
  | _, _ => none

/-! ## The generic mapper -/

namespace BaseMapper

variable {ρ κ : Type} {key : ρ → Option κ} [DecidableEq κ]

/-- `insertSelective`, and `insert`, of a bean with its key set or not. -/
def insert (t : Table ρ κ key) (r : ρ) : Option (Table ρ κ key) :=
  if (key r).isSome then t.insert r else none

/-- `where key = #{key}`: nothing is equal to NULL. -/
def deleteByPrimaryKey (t : Table ρ κ key) (k : Option κ) : Table ρ κ key :=
  t.delete fun r => k.isSome && decide (key r = k)

/-- A key is there after an insert if it was before, or was inserted. -/
theorem has_insert {t t' : Table ρ κ key} {r : ρ} (h : insert t r = some t') {k : κ} :
    t'.Has k ↔ t.Has k ∨ key r = some k := by
  unfold insert at h
  split at h
  · exact Table.has_of_insert h
  · cases h

theorem insert_of_free {t : Table ρ κ key} {r : ρ} {k : κ} (hr : key r = some k) (hk : ¬ t.Has k) :
    ∃ t', insert t r = some t' ∧ t'.rows = t.rows ++ [r] := by
  simp only [insert, hr, Option.isSome_some, if_true]
  exact Table.insert_of_admits ((Table.admits_of_key hr).2 hk)

theorem deleteByPrimaryKey_none (t : Table ρ κ key) : deleteByPrimaryKey t none = t := by
  apply Table.ext_rows
  simp [deleteByPrimaryKey, Table.delete]

theorem has_deleteByPrimaryKey {t : Table ρ κ key} {k k' : κ} :
    (deleteByPrimaryKey t (some k)).Has k' ↔ t.Has k' ∧ k' ≠ k :=
  Table.has_delete_iff (by simp)

end BaseMapper

/-! ## The tables of users, roles and permissions -/

structure SysDb where
  sysUser : Table SysUser String SysUser.userLoginId
  sysRole : Table SysRole String SysRole.roleId
  sysPermission : Table SysPermission String SysPermission.permissionId
  sysUserRole : Table SysUserRole (String × String) fun l => some (l.userLoginId, l.roleId)
  sysRolePermission : Table SysRolePermission (String × String) fun l => some (l.roleId, l.permissionId)

namespace SysPermissionMapper

/-- `permission_id in (select permission_id from sys_role_permission where role_id = #{role_id})` -/
def getPermissionByRoleId (db : SysDb) (roleId : Option String) : List SysPermission :=
  db.sysPermission.rows.filter fun p => db.sysRolePermission.rows.any fun l =>
    decide (some l.roleId = roleId) && decide (some l.permissionId = p.permissionId)

end SysPermissionMapper

namespace SysUserMapper

/-- `resultType="com.whpu.model.SysUser"`: a property is filled from the column that has its
name, or with `mapUnderscoreToCamelCase` (`camel`) its name with underscores. No column is
called anything like `roleList`. A row of which nothing was filled gives null. -/
def autoMap (camel : Bool) (r : SysUser) : Option SysUser :=
  let user : SysUser :=
    { userLoginId := if camel then r.userLoginId else none
      userName := if camel then r.userName else none
      sex := r.sex
      password := r.password }
  if user = { userLoginId := none } then none else some user

/-- `select * from sys_user where user_login_id = #{userLoginId}` -/
def getSysUser (camel : Bool) (db : SysDb) (userLoginId : String) : Except Ex (Option SysUser) :=
  (selectOne (db.sysUser.select userLoginId)).map (·.bind (autoMap camel))

/-- `role_id in (select role_id from sys_user_role where user_login_id = #{userLoginId})`, each
role with its permissions by a nested select. -/
def getSysUserWithPermissionRole (db : SysDb) (userLoginId : Option String) : List SysRole :=
  (db.sysRole.rows.filter fun r => db.sysUserRole.rows.any fun l =>
    decide (some l.userLoginId = userLoginId) && decide (some l.roleId = r.roleId)).map fun r =>
      { r with permissionList := some (SysPermissionMapper.getPermissionByRoleId db r.roleId) }

/-- The same statement as `getSysUser`, with a `resultMap` that fills `roleList` by a nested
select. -/
def getSysUserWithPermission (db : SysDb) (userLoginId : String) : Except Ex (Option SysUser) :=
  (selectOne (db.sysUser.select userLoginId)).map (·.map fun r =>
    { r with roleList := some (getSysUserWithPermissionRole db r.userLoginId) })

end SysUserMapper

end CfsShop
