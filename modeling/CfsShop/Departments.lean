/-
`DepartmentServiceImpl` and `EmployeeServiceImpl`: departments, employees and
who works where.

The two deletions take the memberships of what they delete with them, and
`addDepartmentEmployee` adds no pair twice. What it does not do is look whether
the department and the employee exist; that is all that can go wrong
(`membership_iff`), and `getEmployeeByDepartment`, a left join, then hands out
null employees.
-/
import CfsShop.AdminMapper
import CfsShop.Lib.Run

namespace CfsShop

structure CmDb where
  cmDepartment : Table CmDepartment String CmDepartment.departmentId
  cmEmployee : Table CmEmployee String CmEmployee.employeeId
  cmDepartmentEmployee : Table CmDepartmentEmployee (String × String) CmDepartmentEmployee.key

def CmDb.empty : CmDb := ⟨⟨[], by simp⟩, ⟨[], by simp⟩, ⟨[], by simp⟩⟩

/-! ## The mappers -/

namespace CmDepartmentEmployeeMapper

/-- `AND column = #{field}`, left out where the field is null. -/
def ifNotNull (field column : Option String) : Bool := field.isNone || decide (column = field)

/-- The `where` of `selectCount` and `delete`: all columns of the bean that are not null. -/
def whereAllIfColumns (r row : CmDepartmentEmployee) : Bool :=
  ifNotNull r.departmentId row.departmentId && ifNotNull r.employeeId row.employeeId

def selectCount (db : CmDb) (r : CmDepartmentEmployee) : Nat :=
  db.cmDepartmentEmployee.rows.countP (whereAllIfColumns r)

def insert (db : CmDb) (r : CmDepartmentEmployee) : Option CmDb :=
  (BaseMapper.insert db.cmDepartmentEmployee r).map fun t => { db with cmDepartmentEmployee := t }

/-- The number of rows deleted, and the tables after. -/
def delete (db : CmDb) (r : CmDepartmentEmployee) : Nat × CmDb :=
  (selectCount db r, { db with cmDepartmentEmployee := db.cmDepartmentEmployee.delete (whereAllIfColumns r) })

def deleteByEmployeeId (db : CmDb) (employeeId : Option String) : CmDb :=
  { db with
    cmDepartmentEmployee := db.cmDepartmentEmployee.delete fun row =>
      employeeId.isSome && decide (row.employeeId = employeeId) }

def deleteByDepartmentId (db : CmDb) (departmentId : Option String) : CmDb :=
  { db with
    cmDepartmentEmployee := db.cmDepartmentEmployee.delete fun row =>
      departmentId.isSome && decide (row.departmentId = departmentId) }

end CmDepartmentEmployeeMapper

namespace CmDepartmentMapper

/-- One row of `cm_department_employee d left join cm_employee c`. The statement does not select
`e_age`, and a row of nothing but NULLs gives null. -/
def joined (db : CmDb) (row : CmDepartmentEmployee) : Option CmEmployee :=
  (row.employeeId.bind db.cmEmployee.find?).map fun c => { c with eAge := none }

def getEmployeeByDepartment (db : CmDb) (departmentId : String) : List (Option CmEmployee) :=
  (db.cmDepartmentEmployee.rows.filter fun row => row.departmentId = some departmentId).map (joined db)

end CmDepartmentMapper

/-! ## The services -/

namespace DepartmentService

/-- `@GeneratedValue(generator = "UUID")`: an id that is null is made up. -/
def createDepartment (db : CmDb) (uuid : String) (cmDepartment : CmDepartment) : Option CmDb :=
  (BaseMapper.insert db.cmDepartment
    { cmDepartment with departmentId := some (cmDepartment.departmentId.getD uuid) }).map fun t =>
      { db with cmDepartment := t }

def delDepartment (db : CmDb) (departmentId : Option String) : CmDb :=
  let db := CmDepartmentEmployeeMapper.deleteByDepartmentId db departmentId
  { db with cmDepartment := BaseMapper.deleteByPrimaryKey db.cmDepartment departmentId }

/-- The number of rows inserted, and the tables after. -/
def addDepartmentEmployee (db : CmDb) (r : CmDepartmentEmployee) : Option (Nat × CmDb) :=
  let queryCount := CmDepartmentEmployeeMapper.selectCount db r
  if queryCount ≤ 0 then (CmDepartmentEmployeeMapper.insert db r).map fun db => (1, db)
  else some (0, db)

def deleteDepartmentEmployee (db : CmDb) (r : CmDepartmentEmployee) : Nat × CmDb :=
  CmDepartmentEmployeeMapper.delete db r

end DepartmentService

namespace EmployeeService

def createEmployee (db : CmDb) (uuid : String) (cmEmployee : CmEmployee) : Option CmDb :=
  (BaseMapper.insert db.cmEmployee
    { cmEmployee with employeeId := some (cmEmployee.employeeId.getD uuid) }).map fun t =>
      { db with cmEmployee := t }

def delEmployee (db : CmDb) (employeeId : Option String) : CmDb :=
  let db := CmDepartmentEmployeeMapper.deleteByEmployeeId db employeeId
  { db with cmEmployee := BaseMapper.deleteByPrimaryKey db.cmEmployee employeeId }

end EmployeeService

/-- A call of one of the two services. -/
inductive CmCall
  | createDepartment (uuid : String) (cmDepartment : CmDepartment)
  | createEmployee (uuid : String) (cmEmployee : CmEmployee)
  | addDepartmentEmployee (r : CmDepartmentEmployee)
  | deleteDepartmentEmployee (r : CmDepartmentEmployee)
  | delDepartment (departmentId : Option String)
  | delEmployee (employeeId : Option String)

namespace CmDb

/-- The tables after a call. One the database refuses throws and is rolled back. -/
def call (db : CmDb) : CmCall → CmDb
  | .createDepartment uuid d => (DepartmentService.createDepartment db uuid d).getD db
  | .createEmployee uuid e => (EmployeeService.createEmployee db uuid e).getD db
  | .addDepartmentEmployee r => ((DepartmentService.addDepartmentEmployee db r).map (·.2)).getD db
  | .deleteDepartmentEmployee r => (DepartmentService.deleteDepartmentEmployee db r).2
  | .delDepartment id => DepartmentService.delDepartment db id
  | .delEmployee id => EmployeeService.delEmployee db id

/-- The pair is a membership. -/
def Member (db : CmDb) (d e : String) : Prop := db.cmDepartmentEmployee.Has (d, e)

instance (db : CmDb) (d e : String) : Decidable (db.Member d e) := inferInstanceAs (Decidable (Table.Has _ _))

/-- How often the employee is in the list. -/
def listed (e : String) (l : List (Option CmEmployee)) : Nat :=
  l.countP fun c => decide (c.bind (·.employeeId) = some e)

/-- Memberships name departments and employees that exist, none twice, and the list of a
department has each of its members once and nothing null. -/
structure Consistent (db : CmDb) : Prop where
  exist : ∀ r ∈ db.cmDepartmentEmployee.rows, ∃ d e, r = ⟨some d, some e⟩ ∧
    db.cmDepartment.Has d ∧ db.cmEmployee.Has e
  once : db.cmDepartmentEmployee.rows.Nodup
  nonNull : ∀ d, none ∉ CmDepartmentMapper.getEmployeeByDepartment db d
  members : ∀ d e, listed e (CmDepartmentMapper.getEmployeeByDepartment db d) =
    if db.Member d e then 1 else 0

/-- A membership is added only where both ends exist. -/
def EndsExist (db : CmDb) : CmCall → Prop
  | .addDepartmentEmployee ⟨some d, some e⟩ => db.cmDepartment.Has d ∧ db.cmEmployee.Has e
  | _ => True

instance (db : CmDb) : (c : CmCall) → Decidable (db.EndsExist c)
  | .addDepartmentEmployee ⟨some d, some e⟩ =>
    inferInstanceAs (Decidable (db.cmDepartment.Has d ∧ db.cmEmployee.Has e))
  | .addDepartmentEmployee ⟨none, _⟩ | .addDepartmentEmployee ⟨some _, none⟩ | .createDepartment _ _
  | .createEmployee _ _ | .deleteDepartmentEmployee _ | .delDepartment _ | .delEmployee _ =>
    inferInstanceAs (Decidable True)

/-! ## What the list shows -/

/-- The first part of `Consistent`, which the rest follows from. -/
def Wired (db : CmDb) : Prop :=
  ∀ r ∈ db.cmDepartmentEmployee.rows, ∃ d e, r = ⟨some d, some e⟩ ∧
    db.cmDepartment.Has d ∧ db.cmEmployee.Has e

theorem key_pair (d e : String) : CmDepartmentEmployee.key ⟨some d, some e⟩ = some (d, e) := rfl

variable {db : CmDb}

/-- The join finds the employee of the row. -/
theorem Wired.joined (h : db.Wired) {r : CmDepartmentEmployee} (hr : r ∈ db.cmDepartmentEmployee.rows) :
    ∃ c, CmDepartmentMapper.joined db r = some c ∧ c.employeeId = r.employeeId := by
  obtain ⟨d, e, rfl, -, he⟩ := h r hr
  obtain ⟨c, hc⟩ := Option.isSome_iff_exists.1 (Table.has_iff_find?.1 he)
  have hid : c.employeeId = some e := Table.key_of_find? hc
  refine ⟨{ c with eAge := none }, ?_, hid⟩
  simp only [CmDepartmentMapper.joined, Option.bind_some, hc, Option.map_some]

theorem Wired.once (h : db.Wired) : db.cmDepartmentEmployee.rows.Nodup := by
  refine db.cmDepartmentEmployee.unique.imp_of_mem ?_
  intro a b ha hb hab he
  obtain ⟨d, e, rfl, -⟩ := h a ha
  rcases hab with hnone | hne
  · cases hnone
  · exact hne (by rw [he])

theorem Wired.nonNull (h : db.Wired) (d : String) :
    none ∉ CmDepartmentMapper.getEmployeeByDepartment db d := by
  intro hnone
  obtain ⟨r, hr, hj⟩ := List.mem_map.1 hnone
  obtain ⟨c, hc, -⟩ := h.joined (List.mem_of_mem_filter hr)
  rw [hc] at hj
  cases hj

theorem countP_key (t : Table CmDepartmentEmployee (String × String) CmDepartmentEmployee.key)
    (d e : String) :
    t.rows.countP (fun r => decide (r.key = some (d, e))) = if t.Has (d, e) then 1 else 0 := by
  have hsel : t.rows.countP (fun r => decide (r.key = some (d, e))) = (t.select (d, e)).length := by
    rw [List.countP_eq_length_filter]
    rfl
  rw [hsel, Table.select_eq]
  by_cases ht : t.Has (d, e)
  · obtain ⟨r, hr⟩ := Option.isSome_iff_exists.1 (Table.has_iff_find?.1 ht)
    rw [if_pos ht, hr]
    rfl
  · have hnone : t.find? (d, e) = none := by
      rw [← Option.not_isSome_iff_eq_none, ← Table.has_iff_find?]
      exact ht
    rw [if_neg ht, hnone]
    rfl

theorem Wired.members (h : db.Wired) (d e : String) :
    listed e (CmDepartmentMapper.getEmployeeByDepartment db d) = if db.Member d e then 1 else 0 := by
  show _ = if db.cmDepartmentEmployee.Has (d, e) then 1 else 0
  rw [← countP_key, listed, CmDepartmentMapper.getEmployeeByDepartment, List.countP_map,
    List.countP_filter]
  apply List.countP_congr
  intro r hr
  obtain ⟨c, hc, hid⟩ := h.joined hr
  obtain ⟨d', e', rfl, -⟩ := h r hr
  simp only [Function.comp, hc, Option.bind_some, hid, key_pair, Bool.and_eq_true, decide_eq_true_eq,
    Option.some.injEq, Prod.mk.injEq]
  exact and_comm

theorem consistent_iff : db.Consistent ↔ db.Wired :=
  ⟨fun h => h.exist, fun h => ⟨h, h.once, h.nonNull, h.members⟩⟩

/-! ## One call -/

theorem Wired.createDepartment (h : db.Wired) (uuid : String) (d : CmDepartment) :
    (db.call (.createDepartment uuid d)).Wired := by
  simp only [call, DepartmentService.createDepartment]
  cases ht : BaseMapper.insert db.cmDepartment
      { d with departmentId := some (d.departmentId.getD uuid) } with
  | none => exact h
  | some t =>
    intro r hr
    obtain ⟨d', e', rfl, hd, he⟩ := h r hr
    exact ⟨d', e', rfl, (BaseMapper.has_insert ht).2 (.inl hd), he⟩

theorem Wired.createEmployee (h : db.Wired) (uuid : String) (e : CmEmployee) :
    (db.call (.createEmployee uuid e)).Wired := by
  simp only [call, EmployeeService.createEmployee]
  cases ht : BaseMapper.insert db.cmEmployee { e with employeeId := some (e.employeeId.getD uuid) } with
  | none => exact h
  | some t =>
    intro r hr
    obtain ⟨d', e', rfl, hd, he⟩ := h r hr
    exact ⟨d', e', rfl, hd, (BaseMapper.has_insert ht).2 (.inl he)⟩

/-- Deleting memberships leaves the others wired. -/
theorem Wired.delete (h : db.Wired) (p : CmDepartmentEmployee → Bool) :
    Wired { db with cmDepartmentEmployee := db.cmDepartmentEmployee.delete p } :=
  fun r hr => h r (Table.mem_delete.1 hr).1

theorem Wired.delDepartment (h : db.Wired) (id : Option String) : (db.call (.delDepartment id)).Wired := by
  cases id with
  | none =>
    simp only [call, DepartmentService.delDepartment, BaseMapper.deleteByPrimaryKey_none]
    exact h.delete _
  | some d =>
    intro r hr
    simp only [call, DepartmentService.delDepartment, CmDepartmentEmployeeMapper.deleteByDepartmentId]
      at hr ⊢
    rw [Table.mem_delete] at hr
    obtain ⟨d', e', rfl, hd, he⟩ := h r hr.1
    have hne : d' ≠ d := by simpa using hr.2
    exact ⟨d', e', rfl, BaseMapper.has_deleteByPrimaryKey.2 ⟨hd, hne⟩, he⟩

theorem Wired.delEmployee (h : db.Wired) (id : Option String) : (db.call (.delEmployee id)).Wired := by
  cases id with
  | none =>
    simp only [call, EmployeeService.delEmployee, BaseMapper.deleteByPrimaryKey_none]
    exact h.delete _
  | some e =>
    intro r hr
    simp only [call, EmployeeService.delEmployee, CmDepartmentEmployeeMapper.deleteByEmployeeId] at hr ⊢
    rw [Table.mem_delete] at hr
    obtain ⟨d', e', rfl, hd, he⟩ := h r hr.1
    have hne : e' ≠ e := by simpa using hr.2
    exact ⟨d', e', rfl, hd, BaseMapper.has_deleteByPrimaryKey.2 ⟨he, hne⟩⟩

open CmDepartmentEmployeeMapper (ifNotNull whereAllIfColumns selectCount)

theorem where_self (r : CmDepartmentEmployee) : whereAllIfColumns r r = true := by
  simp [whereAllIfColumns, ifNotNull]

/-- With both ids given, the `where` picks out the row. -/
theorem where_iff (d e : String) (row : CmDepartmentEmployee) :
    whereAllIfColumns ⟨some d, some e⟩ row = true ↔ row = ⟨some d, some e⟩ := by
  obtain ⟨d', e'⟩ := row
  simp [whereAllIfColumns, ifNotNull]

theorem key_eq_some {row : CmDepartmentEmployee} {d e : String} :
    row.key = some (d, e) ↔ row = ⟨some d, some e⟩ := by
  obtain ⟨d', e'⟩ := row
  cases d' <;> cases e' <;> simp [CmDepartmentEmployee.key]

theorem member_iff {d e : String} : db.Member d e ↔ ⟨some d, some e⟩ ∈ db.cmDepartmentEmployee.rows := by
  simp only [Member, Table.Has, key_eq_some, exists_eq_right]

/-- A membership that is there already is not added again. -/
theorem add_of_mem {r : CmDepartmentEmployee} (h : r ∈ db.cmDepartmentEmployee.rows) :
    DepartmentService.addDepartmentEmployee db r = some (0, db) := by
  have hpos : 0 < selectCount db r := List.countP_pos_iff.2 ⟨r, h, where_self r⟩
  rw [DepartmentService.addDepartmentEmployee, if_neg (by omega)]

/-- A new pair is added, whatever it names. -/
theorem add_of_not_member {d e : String} (h : ¬ db.Member d e) :
    ∃ t, DepartmentService.addDepartmentEmployee db ⟨some d, some e⟩ =
        some (1, { db with cmDepartmentEmployee := t }) ∧
      t.rows = db.cmDepartmentEmployee.rows ++ [⟨some d, some e⟩] := by
  obtain ⟨t, ht, hrows⟩ := BaseMapper.insert_of_free (t := db.cmDepartmentEmployee)
    (r := ⟨some d, some e⟩) (key_pair d e) h
  have hzero : selectCount db ⟨some d, some e⟩ = 0 := by
    rw [selectCount, List.countP_eq_zero]
    intro row hrow hw
    rw [(where_iff d e row).1 hw] at hrow
    exact h (member_iff.2 hrow)
  refine ⟨t, ?_, hrows⟩
  simp only [DepartmentService.addDepartmentEmployee, hzero, Nat.le_refl, if_true,
    CmDepartmentEmployeeMapper.insert, ht, Option.map_some]

/-- A pair without one of its ids is refused, unless something like it is found. -/
theorem add_of_null (db : CmDb) {r : CmDepartmentEmployee} (h : r.key = none) :
    DepartmentService.addDepartmentEmployee db r = none ∨
      DepartmentService.addDepartmentEmployee db r = some (0, db) := by
  have hinsert : CmDepartmentEmployeeMapper.insert db r = none := by
    simp [CmDepartmentEmployeeMapper.insert, BaseMapper.insert, h]
  rw [DepartmentService.addDepartmentEmployee, hinsert]
  split
  · exact .inl rfl
  · exact .inr rfl

theorem call_add_of_member {d e : String} (h : db.Member d e) :
    db.call (.addDepartmentEmployee ⟨some d, some e⟩) = db := by
  simp only [call, add_of_mem (member_iff.1 h), Option.map_some, Option.getD_some]

theorem call_add_of_not_member {d e : String} (h : ¬ db.Member d e) :
    ∃ t, db.call (.addDepartmentEmployee ⟨some d, some e⟩) = { db with cmDepartmentEmployee := t } ∧
      t.rows = db.cmDepartmentEmployee.rows ++ [⟨some d, some e⟩] := by
  obtain ⟨t, ht, hrows⟩ := add_of_not_member h
  refine ⟨t, ?_, hrows⟩
  simp only [call, ht, Option.map_some, Option.getD_some]

theorem call_add_of_null {r : CmDepartmentEmployee} (h : r.key = none) :
    db.call (.addDepartmentEmployee r) = db := by
  rcases add_of_null db h with hadd | hadd <;> simp [call, hadd]

/-- The tables stay consistent with a call exactly when it adds no membership of a department or
an employee that does not exist. -/
theorem Wired.call_iff (h : db.Wired) (c : CmCall) : (db.call c).Wired ↔ db.EndsExist c := by
  cases c with
  | createDepartment uuid d => exact iff_of_true (h.createDepartment uuid d) trivial
  | createEmployee uuid e => exact iff_of_true (h.createEmployee uuid e) trivial
  | deleteDepartmentEmployee r => exact iff_of_true (h.delete _) trivial
  | delDepartment id => exact iff_of_true (h.delDepartment id) trivial
  | delEmployee id => exact iff_of_true (h.delEmployee id) trivial
  | addDepartmentEmployee r =>
    rcases r with ⟨_ | d, e⟩
    · rw [call_add_of_null rfl]
      exact iff_of_true h trivial
    rcases e with _ | e
    · rw [call_add_of_null rfl]
      exact iff_of_true h trivial
    simp only [EndsExist]
    by_cases hm : db.Member d e
    · rw [call_add_of_member hm]
      obtain ⟨r, hr, hk⟩ := hm
      obtain ⟨d', e', rfl, hd, he⟩ := h r hr
      cases hk
      exact iff_of_true h ⟨hd, he⟩
    · obtain ⟨t, hcall, hrows⟩ := call_add_of_not_member hm
      rw [hcall]
      constructor
      · intro h'
        obtain ⟨d', e', heq, hd, he⟩ := h' ⟨some d, some e⟩ (by simp [hrows])
        cases heq
        exact ⟨hd, he⟩
      · intro hends r hr
        simp only [hrows, List.mem_append, List.mem_singleton] at hr
        rcases hr with hr | rfl
        · exact h r hr
        · exact ⟨d, e, rfl, hends⟩

/-- **Department membership, exactly when.** From empty tables, over any calls: in every state
every membership names an existing department and an existing employee, none is there
twice, and the list of a department has each of its members once and no null, if and
only if every membership is added for a department and an employee that exist. -/
theorem membership_iff (cs : List CmCall) :
    Run.Always call Consistent empty cs ↔ Run.Along call EndsExist empty cs := by
  refine Run.always_iff_along (I := fun _ => True) (fun _ _ _ => trivial) ?_ trivial ?_
  · intro db c _ h
    rw [consistent_iff] at h ⊢
    exact h.call_iff c
  · rw [consistent_iff]
    intro r hr
    cases hr

example : Run.Along call EndsExist empty
    [.createDepartment "x" { departmentId := some "d" }, .createEmployee "x" { employeeId := some "e" },
      .addDepartmentEmployee ⟨some "d", some "e"⟩, .delEmployee (some "e")] := by decide

/-- A membership of a department and an employee that were never created: the list of the
department is one null. -/
theorem null_employee :
    CmDepartmentMapper.getEmployeeByDepartment
        (empty.call (.addDepartmentEmployee ⟨some "d", some "e"⟩)) "d" = [none] ∧
      ¬ Run.Always call Consistent empty [.addDepartmentEmployee ⟨some "d", some "e"⟩] := by
  refine ⟨by decide, ?_⟩
  intro h
  exact h.last.nonNull "d" (by decide)

/-! ## One membership -/

/-- What is expected of adding and removing a membership: deleting it removes no other row, it is
added where it is missing, with the number of rows added returned, and deleting it right after it
was added restores the tables. -/
structure TouchesOnly (db : CmDb) (r : CmDepartmentEmployee) : Prop where
  delete : ∀ row ∈ db.cmDepartmentEmployee.rows, row ≠ r →
    row ∈ (DepartmentService.deleteDepartmentEmployee db r).2.cmDepartmentEmployee.rows
  present : r ∈ db.cmDepartmentEmployee.rows →
    DepartmentService.addDepartmentEmployee db r = some (0, db)
  absent : r ∉ db.cmDepartmentEmployee.rows →
    ∃ t, DepartmentService.addDepartmentEmployee db r = some (1, { db with cmDepartmentEmployee := t }) ∧
      t.rows = db.cmDepartmentEmployee.rows ++ [r]
  restored : ∀ db', DepartmentService.addDepartmentEmployee db r = some (1, db') →
    (DepartmentService.deleteDepartmentEmployee db' r).2 = db

/-- With both ids given only the membership itself is touched. -/
theorem touchesOnly_pair (db : CmDb) (d e : String) : db.TouchesOnly ⟨some d, some e⟩ where
  delete := by
    intro row hrow hne
    refine Table.mem_delete.2 ⟨hrow, ?_⟩
    rw [← Bool.not_eq_true, where_iff]
    exact hne
  present := add_of_mem
  absent := fun h => add_of_not_member (mt member_iff.1 h)
  restored := by
    intro db' hadd
    by_cases h : db.Member d e
    · rw [add_of_mem (member_iff.1 h)] at hadd
      simp at hadd
    · obtain ⟨t, ht, hrows⟩ := add_of_not_member h
      rw [ht] at hadd
      simp only [Option.some.injEq, Prod.mk.injEq, true_and] at hadd
      subst hadd
      -- What is left is what was there, since the pair was not.
      have hrest : t.delete (whereAllIfColumns ⟨some d, some e⟩) = db.cmDepartmentEmployee := by
        apply Table.ext_rows
        have hkeep : ∀ row ∈ db.cmDepartmentEmployee.rows,
            (!whereAllIfColumns ⟨some d, some e⟩ row) = true := by
          intro row hrow
          rw [Bool.not_eq_true', ← Bool.not_eq_true, where_iff]
          intro heq
          rw [heq] at hrow
          exact h (member_iff.2 hrow)
        simp only [Table.delete, hrows, List.filter_append, List.filter_eq_self.2 hkeep]
        simp [where_self]
      simp only [DepartmentService.deleteDepartmentEmployee, CmDepartmentEmployeeMapper.delete, hrest]

/-- Adding and removing a membership touches only it exactly when both its ids are given, or
when it is in the table as it is, half or whole empty, and no other row agrees with what it has. -/
theorem touchesOnly_iff (db : CmDb) (r : CmDepartmentEmployee) :
    db.TouchesOnly r ↔ r.key.isSome ∨
      (r ∈ db.cmDepartmentEmployee.rows ∧
        ∀ row ∈ db.cmDepartmentEmployee.rows, whereAllIfColumns r row = true → row = r) := by
  constructor
  · intro h
    rw [or_iff_not_imp_left]
    intro hkey
    rw [Option.not_isSome_iff_eq_none] at hkey
    refine ⟨?_, ?_⟩
    · by_contra hmem
      obtain ⟨t, hadd, -⟩ := h.absent hmem
      rcases add_of_null db hkey with hnone | hzero
      · rw [hnone] at hadd
        cases hadd
      · rw [hzero] at hadd
        simp at hadd
    · intro row hrow hw
      by_contra hne
      have := (Table.mem_delete.1 (h.delete row hrow hne)).2
      rw [hw] at this
      cases this
  · intro h
    by_cases hkey : r.key.isSome
    · obtain ⟨⟨d, e⟩, hk⟩ := Option.isSome_iff_exists.1 hkey
      rw [key_eq_some.1 hk]
      exact db.touchesOnly_pair d e
    · obtain ⟨hmem, honly⟩ := h.resolve_left hkey
      refine ⟨?_, add_of_mem, fun hnot => absurd hmem hnot, ?_⟩
      · intro row hrow hne
        refine Table.mem_delete.2 ⟨hrow, ?_⟩
        rw [← Bool.not_eq_true]
        exact fun hw => hne (honly row hrow hw)
      · intro db' hadd
        rw [add_of_mem hmem] at hadd
        simp at hadd

/-- A department and no employee: the whole department is deleted. -/
theorem not_touchesOnly_department :
    ∃ t : Table CmDepartmentEmployee (String × String) CmDepartmentEmployee.key,
      t.rows = [⟨some "d", some "e"⟩, ⟨some "d", some "e'"⟩] ∧
        (DepartmentService.deleteDepartmentEmployee { empty with cmDepartmentEmployee := t }
          ⟨some "d", none⟩).1 = 2 ∧
        ¬ TouchesOnly { empty with cmDepartmentEmployee := t } ⟨some "d", none⟩ := by
  refine ⟨⟨[⟨some "d", some "e"⟩, ⟨some "d", some "e'"⟩], by decide⟩, rfl, by decide, ?_⟩
  intro h
  exact absurd (h.delete ⟨some "d", some "e"⟩ (by decide) (by decide)) (by decide)

end CmDb

end CfsShop
