/-
The keyword queries behind the list services.

All five put the keyword into the text of the statement, between the quotes of
`LIKE '%${keyword}%'`, once for each column they search. The text is then read
by MySQL: what the keyword has in it of quotes and backslashes is read as part
of the statement, and what it has of `%`, `_` and backslashes as part of the
pattern. `searches_iff` says that the search is one for the keyword exactly
where there is none of them in it.

The text is assumed to be what MySQL gets. A keyword with a `#{...}` in it is
outside of this: MyBatis reads the text it has put together once more, and
would take it for a parameter.
-/
import CfsShop.AdminMapper
import CfsShop.Lib.Sql

namespace CfsShop

/-- A statement `select * from ... WHERE a LIKE '%${keyword}%' or b LIKE '%${keyword}%' ...`: its
text up to the first column, and the names and values of the columns. -/
structure KeywordQuery where
  Row : Type
  /-- The primary key. -/
  key : Row → Option String
  head : String
  columns : List (String × (Row → Option String))

namespace KeywordQuery

def condition (keyword : List Char) (column : String) : List Char :=
  column.toList ++ " LIKE '%".toList ++ keyword ++ "%'".toList

def conditions (keyword : List Char) : List String → List Char
  | [] => []
  | [column] => condition keyword column
  | column :: columns => condition keyword column ++ " or ".toList ++ conditions keyword columns

/-- The text of the statement. `${keyword}` is replaced by the keyword as it is. -/
def text (q : KeywordQuery) (keyword : List Char) : List Char :=
  q.head.toList ++ conditions keyword (q.columns.map Prod.fst)

/-- The rows the statement gives, `none` if its text is not that of such a `select`: outside of
literals it has to be the text that it is with an empty keyword. -/
def select (q : KeywordQuery) (keyword : List Char) (rows : List q.Row) : Option (List q.Row) := do
  let ts ← Sql.lex (q.text keyword)
  let meant ← Sql.lex (q.text [])
  if ts.map Sql.Token.shape = meant.map Sql.Token.shape then
    return rows.filter fun r =>
      (q.columns.zip (Sql.literals ts)).any fun c => (c.1.2 r).any fun v => Sql.like c.2 v.toList
  else none

/-- `findUserByPage` and its like, before the rows are cut into pages. -/
def findUserByPage (q : KeywordQuery) (keyword : Option String) (rows : List q.Row) :
    Option (List q.Row) :=
  let keyword := match keyword with
    | none => ""
    | some keyword => keyword
  q.select keyword.toList rows

end KeywordQuery

def SysUserMapper.getUserList : KeywordQuery where
  Row := SysUser
  key := SysUser.userLoginId
  head := "select * from sys_user WHERE "
  columns := [("user_name", SysUser.userName), ("sex", SysUser.sex),
    ("user_login_id", SysUser.userLoginId), ("password", SysUser.password)]

def SysRoleMapper.getRoleList : KeywordQuery where
  Row := SysRole
  key := SysRole.roleId
  head := "select * from sys_role WHERE  "
  columns := [("role_id", SysRole.roleId), ("role_name", SysRole.roleName)]

def SysPermissionMapper.getPermissionList : KeywordQuery where
  Row := SysPermission
  key := SysPermission.permissionId
  head := "select * from sys_permission WHERE  "
  columns := [("permission_id", SysPermission.permissionId), ("description", SysPermission.description)]

def CmDepartmentMapper.getDepartmentList : KeywordQuery where
  Row := CmDepartment
  key := CmDepartment.departmentId
  head := "select * from cm_department WHERE "
  columns := [("department_name", CmDepartment.departmentName),
    ("department_description", CmDepartment.departmentDescription)]

def CmEmployeeMapper.getEmployeeList : KeywordQuery where
  Row := CmEmployee
  key := CmEmployee.employeeId
  head := "select * from cm_employee WHERE  "
  columns := [("e_sex", CmEmployee.eSex), ("e_name", CmEmployee.eName), ("e_age", CmEmployee.eAge)]

/-! ## Plain keywords -/

namespace KeywordQuery

open Sql (lex lexLiteral Token Plain)

/-- The tokens of a condition with this pattern. -/
def conditionTokens (pattern : List Char) (column : String) : List Token :=
  (column.toList ++ " LIKE ".toList).map .char ++ [.literal pattern]

def conditionsTokens (pattern : List Char) : List String → List Token
  | [] => []
  | [column] => conditionTokens pattern column
  | column :: columns =>
    conditionTokens pattern column ++ " or ".toList.map .char ++ conditionsTokens pattern columns

theorem shape_conditionsTokens (p p' : List Char) (columns : List String) :
    (conditionsTokens p columns).map Token.shape = (conditionsTokens p' columns).map Token.shape := by
  induction columns using conditionsTokens.induct with
  | case1 => rfl
  | case2 column => simp [conditionsTokens, conditionTokens, Token.shape]
  | case3 column columns h ih =>
    rw [conditionsTokens, conditionsTokens]
    · simp [conditionTokens, Token.shape, ih]
    all_goals exact h

theorem literals_conditionTokens (p : List Char) (column : String) :
    Sql.literals (conditionTokens p column) = [p] := by
  rw [conditionTokens, Sql.literals_append, Sql.literals_text]
  rfl

theorem literals_conditionsTokens (p : List Char) (columns : List String) :
    Sql.literals (conditionsTokens p columns) = columns.map fun _ => p := by
  induction columns using conditionsTokens.induct with
  | case1 => rfl
  | case2 column => exact literals_conditionTokens p column
  | case3 column columns h ih =>
    rw [conditionsTokens, Sql.literals_append, Sql.literals_append, literals_conditionTokens,
      Sql.literals_text, ih]
    · rfl
    · exact h

/-- A condition up to its literal. -/
theorem condition_append (keyword : List Char) (column : String) (rest : List Char) :
    condition keyword column ++ rest =
      (column.toList ++ " LIKE ".toList) ++
        '\'' :: '%' :: (keyword ++ '%' :: '\'' :: rest) := by
  simp [condition]

variable {keyword : List Char}

theorem lex_condition (hk : ∀ c ∈ keyword, Plain c) {column : String} (hc : '\'' ∉ column.toList)
    {rest : List Char} (hrest : ∀ t, rest ≠ '\'' :: t) :
    lex (condition keyword column ++ rest) =
      (lex rest).map (conditionTokens ('%' :: (keyword ++ ['%'])) column ++ ·) := by
  have hquiet : '\'' ∉ column.toList ++ " LIKE ".toList := by
    rw [List.mem_append, not_or]
    exact ⟨hc, by decide⟩
  rw [condition_append, Sql.lex_text hquiet, lex, Sql.lexLiteral_char (by decide) (by decide),
    Sql.lexLiteral_plain hk, Sql.lexLiteral_char (by decide) (by decide), Sql.lexLiteral_quote hrest]
  simp [conditionTokens, Function.comp_def]

theorem lex_conditions (hk : ∀ c ∈ keyword, Plain c) {columns : List String}
    (hc : ∀ column ∈ columns, '\'' ∉ column.toList) :
    lex (conditions keyword columns) =
      some (conditionsTokens ('%' :: (keyword ++ ['%'])) columns) := by
  induction columns using conditions.induct with
  | case1 => simp [conditions, conditionsTokens, lex]
  | case2 column =>
    have h : lex (condition keyword column ++ []) = _ := lex_condition hk (hc column (by simp)) (by simp)
    rw [List.append_nil] at h
    rw [conditions, h, lex]
    simp [conditionsTokens]
  | case3 column columns hne ih =>
    rw [List.forall_mem_cons] at hc
    rw [conditions, conditionsTokens, List.append_assoc, lex_condition hk hc.1 (by simp),
      Sql.lex_text (by decide), ih hc.2]
    · simp
    all_goals exact hne

/-- What the five queries have in common. -/
structure WellFormed (q : KeywordQuery) : Prop where
  head : '\'' ∉ q.head.toList
  columns : ∀ c ∈ q.columns, '\'' ∉ c.1.toList
  some_column : q.columns ≠ []
  /-- All columns may have one value. -/
  row : ∀ v, ∃ r, ∀ c ∈ q.columns, c.2 r = some v

variable {q : KeywordQuery}

theorem WellFormed.lex_text (hq : q.WellFormed) (hk : ∀ c ∈ keyword, Plain c) :
    lex (q.text keyword) = some (q.head.toList.map .char ++
      conditionsTokens ('%' :: (keyword ++ ['%'])) (q.columns.map Prod.fst)) := by
  have hcolumns : ∀ column ∈ q.columns.map Prod.fst, '\'' ∉ column.toList := by
    intro column hcolumn
    obtain ⟨c, hc, rfl⟩ := List.mem_map.1 hcolumn
    exact hq.columns c hc
  rw [text, Sql.lex_text hq.head, lex_conditions hk hcolumns]
  rfl

/-- The rows that have the keyword in one of the columns. -/
def containing (q : KeywordQuery) (keyword : List Char) (rows : List q.Row) : List q.Row :=
  rows.filter fun r => q.columns.any fun c => (c.2 r).any fun v => decide (keyword <:+: v.toList)

theorem like_any (hk : ∀ c ∈ keyword, Plain c) (value : Option String) :
    (value.any fun v => Sql.like ('%' :: (keyword ++ ['%'])) v.toList) =
      value.any fun v => decide (keyword <:+: v.toList) := by
  cases value with
  | none => rfl
  | some v =>
    rw [Option.any_some, Option.any_some, Bool.eq_iff_iff, decide_eq_true_eq]
    exact Sql.like_contains hk v.toList

/-- A plain keyword is what is searched for. -/
theorem WellFormed.select_plain (hq : q.WellFormed) (hk : ∀ c ∈ keyword, Plain c)
    (rows : List q.Row) : q.select keyword rows = some (q.containing keyword rows) := by
  have hmeant : lex (q.text []) = _ := hq.lex_text (by simp)
  rw [select, hq.lex_text hk, hmeant]
  simp only [Option.bind_eq_bind, Option.bind_some]
  rw [if_pos (by rw [List.map_append, List.map_append, shape_conditionsTokens]), Sql.literals_append,
    Sql.literals_text, literals_conditionsTokens, List.nil_append, List.map_map]
  have hzip : q.columns.zip (q.columns.map fun _ => '%' :: (keyword ++ ['%'])) =
      q.columns.map fun c => (c, '%' :: (keyword ++ ['%'])) := List.map_prod_left_eq_zip.symm
  simp only [Function.comp_def, hzip, List.any_map, like_any hk]
  rfl

/-! ## Other keywords -/

/-- The text after the first literal does not go on with a quote. -/
theorem text_eq (hq : q.WellFormed) (keyword : List Char) :
    ∃ pre rest, '\'' ∉ pre ∧ (∀ t, rest ≠ '\'' :: t) ∧
      q.text keyword = pre ++ '\'' :: '%' :: (keyword ++ '%' :: '\'' :: rest) := by
  obtain ⟨c, cs, hcs⟩ := List.exists_cons_of_ne_nil hq.some_column
  have hc : '\'' ∉ c.1.toList := hq.columns c (by simp [hcs])
  have hpre : '\'' ∉ q.head.toList ++ (c.1.toList ++ " LIKE ".toList) := by
    simp only [List.mem_append, not_or]
    exact ⟨hq.head, hc, by decide⟩
  rw [text, hcs, List.map_cons]
  cases cs with
  | nil =>
    refine ⟨_, [], hpre, by simp, ?_⟩
    rw [List.map_nil, conditions, ← List.append_nil (condition _ _), condition_append,
      ← List.append_assoc]
  | cons d ds =>
    refine ⟨_, " or ".toList ++ conditions keyword ((d :: ds).map Prod.fst), hpre, by simp, ?_⟩
    rw [conditions, List.append_assoc, condition_append]
    · simp
    · simp

/-- A row that the first column finds is among those given. -/
theorem mem_of_select {ts : List Token} {rows found : List q.Row} {r : q.Row}
    {c : String × (q.Row → Option String)} {p : List Char} (hlex : lex (q.text keyword) = some ts)
    (h : q.select keyword rows = some found) (hr : r ∈ rows)
    (hc : (c, p) ∈ q.columns.zip (Sql.literals ts)) {v : String} (hv : c.2 r = some v)
    (hlike : Sql.like p v.toList = true) : r ∈ found := by
  rw [select, hlex] at h
  simp only [Option.bind_eq_bind, Option.bind_some, Option.bind_eq_some_iff] at h
  obtain ⟨meant, -, h⟩ := h
  split at h
  · cases h
    rw [List.mem_filter, List.any_eq_true]
    exact ⟨hr, (c, p), hc, by rw [hv, Option.any_some]; exact hlike⟩
  · cases h

/-- A query that gives the rows it should was given a plain keyword. -/
theorem WellFormed.plain_of_select (hq : q.WellFormed)
    (h : ∀ t : Table q.Row String q.key, q.select keyword t.rows = some (q.containing keyword t.rows)) :
    ∀ c ∈ keyword, Plain c := by
  obtain ⟨pre, rest, hpre, hrest, htext⟩ := text_eq hq keyword
  have hsome := h ⟨[], List.Pairwise.nil⟩
  cases hlex : lexLiteral ('%' :: (keyword ++ '%' :: '\'' :: rest)) with
  | none =>
    rw [select, htext, Sql.lex_text hpre, lex, hlex] at hsome
    cases hsome
  | some r =>
    obtain ⟨p, ts⟩ := r
    have hlexed : lex (q.text keyword) = some (pre.map .char ++ .literal p :: ts) := by
      rw [htext, Sql.lex_text hpre, lex, hlex]
      rfl
    refine Sql.plain_of_like hrest hlex ?_
    intro v hv
    -- A row with the value in all columns, which the first of them finds.
    obtain ⟨r, hr⟩ := hq.row (String.ofList v)
    obtain ⟨c, cs, hcs⟩ := List.exists_cons_of_ne_nil hq.some_column
    have hfirst : (c, p) ∈ q.columns.zip (Sql.literals (pre.map .char ++ .literal p :: ts)) := by
      rw [hcs, Sql.literals_append, Sql.literals_text]
      exact List.mem_cons_self
    have hfound := mem_of_select hlexed (h ⟨[r], List.pairwise_singleton _ _⟩) (by simp) hfirst
      (hr c (by simp [hcs])) (by rw [String.toList_ofList]; exact hv)
    rw [containing, List.mem_filter, List.any_eq_true] at hfound
    obtain ⟨-, c', hc', hany⟩ := hfound
    rw [hr c' hc', Option.any_some, decide_eq_true_eq, String.toList_ofList] at hany
    exact hany

/-- The query gives the rows that have the keyword in one of the columns it searches. -/
def Searches (q : KeywordQuery) (keyword : Option String) : Prop :=
  ∀ t : Table q.Row String q.key,
    q.findUserByPage keyword t.rows = some (q.containing (keyword.getD "").toList t.rows)

end KeywordQuery

/-! ## The list services -/

/-- The query of a list service. -/
inductive ListQuery
  | getUserList
  | getRoleList
  | getPermissionList
  | getDepartmentList
  | getEmployeeList

namespace ListQuery

def query : ListQuery → KeywordQuery
  | getUserList => SysUserMapper.getUserList
  | getRoleList => SysRoleMapper.getRoleList
  | getPermissionList => SysPermissionMapper.getPermissionList
  | getDepartmentList => CmDepartmentMapper.getDepartmentList
  | getEmployeeList => CmEmployeeMapper.getEmployeeList

theorem wellFormed (l : ListQuery) : l.query.WellFormed := by
  cases l with
  | getUserList =>
    exact ⟨by decide, by decide, List.cons_ne_nil _ _, fun v =>
      ⟨⟨some v, some v, some v, some v, none⟩, List.forall_iff_forall_mem.1 ⟨rfl, rfl, rfl, rfl⟩⟩⟩
  | getRoleList =>
    exact ⟨by decide, by decide, List.cons_ne_nil _ _, fun v =>
      ⟨⟨some v, some v, none⟩, List.forall_iff_forall_mem.1 ⟨rfl, rfl⟩⟩⟩
  | getPermissionList =>
    exact ⟨by decide, by decide, List.cons_ne_nil _ _, fun v =>
      ⟨⟨some v, some v⟩, List.forall_iff_forall_mem.1 ⟨rfl, rfl⟩⟩⟩
  | getDepartmentList =>
    exact ⟨by decide, by decide, List.cons_ne_nil _ _, fun v =>
      ⟨⟨some v, some v, some v⟩, List.forall_iff_forall_mem.1 ⟨rfl, rfl⟩⟩⟩
  | getEmployeeList =>
    exact ⟨by decide, by decide, List.cons_ne_nil _ _, fun v =>
      ⟨⟨some v, some v, some v, some v⟩, List.forall_iff_forall_mem.1 ⟨rfl, rfl, rfl⟩⟩⟩

/-- **A keyword is searched for exactly where it has none of** `'`, `\\`, `%` **and** `_`. -/
theorem searches_iff (l : ListQuery) (keyword : Option String) :
    l.query.Searches keyword ↔ ∀ c ∈ (keyword.getD "").toList, Sql.Plain c := by
  have hkeyword : ∀ rows, l.query.findUserByPage keyword rows =
      l.query.select (keyword.getD "").toList rows := by
    intro rows
    cases keyword <;> rfl
  unfold KeywordQuery.Searches
  simp only [hkeyword]
  constructor
  · intro h
    exact l.wellFormed.plain_of_select h
  · intro h t
    exact l.wellFormed.select_plain h t.rows

/-- A percent sign finds what has none. -/
theorem not_searches_percent : ¬ getDepartmentList.query.Searches (some "%") := by
  intro h
  have hall := h ⟨[⟨some "d", some "sales", none⟩], List.pairwise_singleton _ _⟩
  have hlength := congrArg (Option.map List.length) hall
  revert hlength
  decide

end ListQuery

end CfsShop
