/-
The database of the sale and the statements of `GoodsMapper` and
`OrderMapper`. Each statement runs alone (no call here is inside a
transaction), so each is one atomic function of the database.

The dump names the tables `cfs_ms_goods` and `cfs_ms_order`; the mappers say
`miaosha_goods` and `miaosha_order`.
-/
import CfsShop.Beans
import CfsShop.Lib.Table

namespace CfsShop

/-- `UNIQUE KEY uid_gid (user_id, goods_id)`: no key when one of them is NULL. -/
def MiaoshaOrder.uidGid (o : MiaoshaOrder) : Option (Long × Long) :=
  match o.userId, o.goodsId with
  | some u, some g => some (u, g)
  | _, _ => none

/-- The tables of the sale: `goods` and `miaosha_order` with the keys the dump
declares, `order_info` with its generated primary key. One row per `goods_id` in
`miaosha_goods` is how the shop is kept; the schema does not enforce it. -/
structure Db where
  goods : Table Goods Long fun g => some g.id
  miaoshaGoods : Table MiaoshaGoods Long MiaoshaGoods.goodsId
  orderInfo : Serial OrderInfo OrderInfo.id
  miaoshaOrder : Table MiaoshaOrder (Long × Long) MiaoshaOrder.uidGid

/-- MyBatis's `selectOne`. -/
def selectOne {α : Type} : List α → Except Ex (Option α)
  | [] => .ok none
  | [a] => .ok (some a)
  | _ :: _ :: _ => .error .tooManyResults

theorem selectOne_toList {α : Type} (o : Option α) : selectOne o.toList = .ok o := by
  cases o <;> rfl

/-! ## GoodsMapper -/

/-- One row of `miaosha_goods mg left join goods g on mg.goods_id = g.id`. -/
def GoodsVo.join (mg : MiaoshaGoods) (g : Option Goods) : GoodsVo where
  id := g.map (·.id)
  goodsName := g.bind (·.goodsName)
  goodsImg := g.bind (·.goodsImg)
  goodsPrice := g.bind (·.goodsPrice)
  stockCount := mg.stockCount
  startDate := mg.startDate
  endDate := mg.endDate
  miaoshaPrice := mg.miaoshaPrice

namespace GoodsMapper

def listGoodsVo (db : Db) : List GoodsVo :=
  db.miaoshaGoods.rows.map fun mg => .join mg (mg.goodsId.bind db.goods.find?)

def getGoodsVoByGoodsId (db : Db) (goodsId : Long) : Except Ex (Option GoodsVo) :=
  selectOne ((listGoodsVo db).filter fun vo => vo.id = some goodsId)

/-- `where goods_id = #{goodsId} and stock_count > 0`; a NULL on either side is not equal. -/
def inStock (goodsId : Option Long) (r : MiaoshaGoods) : Bool :=
  match goodsId, r.goodsId, r.stockCount with
  | some g, some g', some n => g' == g && decide (0 < n)
  | _, _, _ => false

/-- `set stock_count = stock_count - 1`, in the rows the `where` picks. -/
def takeOne (goodsId : Option Long) (r : MiaoshaGoods) : MiaoshaGoods :=
  if inStock goodsId r then { r with stockCount := r.stockCount.map (· - 1) } else r

/-- The number of rows updated, and the database after. -/
def reduceStock (db : Db) (g : MiaoshaGoods) : Nat × Db :=
  (db.miaoshaGoods.rows.countP (inStock g.goodsId),
    { db with
      miaoshaGoods := db.miaoshaGoods.update (takeOne g.goodsId) fun r => by
        unfold takeOne; split <;> rfl })

end GoodsMapper

/-! ## OrderMapper -/

namespace OrderMapper

def getMiaoshaOrderByUserIdGoodsId (db : Db) (userId goodsId : Long) :
    Except Ex (Option MiaoshaOrder) :=
  selectOne (db.miaoshaOrder.rows.filter fun o => o.userId = some userId ∧ o.goodsId = some goodsId)

/-- The insert, and the value `last_insert_id()` has on its connection afterwards. The
statement names every column but `delivery_addr_id`, which stays NULL. -/
def insert (db : Db) (orderInfo : OrderInfo) : Long × Db :=
  (db.orderInfo.next,
    { db with
      orderInfo := db.orderInfo.insert
        (fun n => { orderInfo with id := some n, deliveryAddrId := none }) fun _ => rfl })

def insertMiaoshaOrder (db : Db) (miaoshaOrder : MiaoshaOrder) : Except Ex Db :=
  match db.miaoshaOrder.insert miaoshaOrder with
  | some t => .ok { db with miaoshaOrder := t }
  | none => .error .duplicateKey

end OrderMapper

/-! ## What the statements read -/

namespace Db

/-- `stock_count` of a goods: `none` when it has no row, or a NULL there. -/
def stock (db : Db) (goodsId : Option Long) : Option Int :=
  goodsId.bind fun g => (db.miaoshaGoods.find? g).bind (·.stockCount)

/-- Something is left to sell. -/
def InStock (db : Db) (g : Long) : Prop := ∃ n, db.stock (some g) = some n ∧ 0 < n

theorem not_inStock_iff {db : Db} {g : Long} :
    ¬ db.InStock g ↔ ∀ n, db.stock (some g) = some n → n ≤ 0 := by
  simp only [InStock, not_exists, not_and, Int.not_lt]

/-- A user has an order for a goods, as the unique key sees it. -/
def HasOrder (db : Db) (userId goodsId : Long) : Prop := db.miaoshaOrder.Has (userId, goodsId)

instance (db : Db) (u g : Long) : Decidable (db.HasOrder u g) :=
  inferInstanceAs (Decidable (db.miaoshaOrder.Has (u, g)))

/-- The goods is in the shop and in the sale, with a stock that is not NULL. -/
def Sells (db : Db) (g : Long) : Prop := (db.goods.find? g).isSome ∧ (db.stock (some g)).isSome

end Db

theorem uidGid_eq_some {o : MiaoshaOrder} {u g : Long} :
    o.uidGid = some (u, g) ↔ o.userId = some u ∧ o.goodsId = some g := by
  obtain ⟨u', oid, g'⟩ := o
  cases u' <;> cases g' <;> simp [MiaoshaOrder.uidGid]

namespace GoodsMapper

theorem listGoodsVo_filter (db : Db) (g : Long) :
    (listGoodsVo db).filter (fun vo => vo.id = some g) =
      ((db.goods.find? g).bind fun a => (db.miaoshaGoods.find? g).map fun mg =>
        GoodsVo.join mg (some a)).toList := by
  have hsel : ∀ mg : MiaoshaGoods, (GoodsVo.join mg (mg.goodsId.bind db.goods.find?)).id = some g ↔
      mg.goodsId = some g ∧ (db.goods.find? g).isSome := by
    intro mg
    constructor
    · intro h
      simp only [GoodsVo.join, Option.map_eq_some_iff, Option.bind_eq_some_iff] at h
      obtain ⟨a, ⟨g', hg', ha⟩, rfl⟩ := h
      have := Table.key_of_find? ha
      simp only [Option.some.injEq] at this
      subst this
      exact ⟨hg', by simp [ha]⟩
    · intro h
      obtain ⟨hmg, hg⟩ := h
      obtain ⟨a, ha⟩ := Option.isSome_iff_exists.1 hg
      have hid := Table.key_of_find? ha
      simpa [GoodsVo.join, hmg, ha] using hid
  rw [listGoodsVo, List.filter_map]
  cases hg : db.goods.find? g with
  | none =>
    have : db.miaoshaGoods.rows.filter
        ((fun vo : GoodsVo => decide (vo.id = some g)) ∘ fun mg =>
          GoodsVo.join mg (mg.goodsId.bind db.goods.find?)) = [] := by
      rw [List.filter_eq_nil_iff]
      intro mg _
      simp [hsel, hg]
    simp [this]
  | some a =>
    have : db.miaoshaGoods.rows.filter
        ((fun vo : GoodsVo => decide (vo.id = some g)) ∘ fun mg =>
          GoodsVo.join mg (mg.goodsId.bind db.goods.find?)) =
        db.miaoshaGoods.select g := by
      unfold Table.select
      apply List.filter_congr
      intro mg _
      simp [hsel, hg]
    rw [this, Table.select_eq]
    cases hm : db.miaoshaGoods.find? g with
    | none => rfl
    | some mg => simp [Table.key_of_find? hm, hg]

/-- The lookup never finds two rows: it returns the join of the goods' own two rows. -/
theorem getGoodsVoByGoodsId_eq (db : Db) (g : Long) :
    getGoodsVoByGoodsId db g =
      .ok ((db.goods.find? g).bind fun a => (db.miaoshaGoods.find? g).map fun mg =>
        GoodsVo.join mg (some a)) := by
  rw [getGoodsVoByGoodsId, listGoodsVo_filter, selectOne_toList]

/-- What a looked-up goods carries: its own id, and the stock as it is now. -/
theorem getGoodsVoByGoodsId_some {db : Db} {g : Long} {vo : GoodsVo}
    (h : getGoodsVoByGoodsId db g = .ok (some vo)) : vo.id = some g ∧
      vo.stockCount = db.stock (some g) := by
  rw [getGoodsVoByGoodsId_eq, Except.ok.injEq] at h
  simp only [Option.bind_eq_some_iff, Option.map_eq_some_iff] at h
  obtain ⟨a, ha, mg, hmg, rfl⟩ := h
  have := Table.key_of_find? ha
  simp_all [GoodsVo.join, Db.stock]

theorem getGoodsVoByGoodsId_of_sells {db : Db} {g : Long} (h : db.Sells g) :
    ∃ vo n, getGoodsVoByGoodsId db g = .ok (some vo) ∧ vo.id = some g ∧ vo.stockCount = some n ∧
      db.stock (some g) = some n := by
  obtain ⟨hg, hs⟩ := h
  obtain ⟨a, ha⟩ := Option.isSome_iff_exists.1 hg
  obtain ⟨n, hn⟩ := Option.isSome_iff_exists.1 hs
  simp only [Db.stock, Option.bind_some, Option.bind_eq_some_iff] at hn
  obtain ⟨mg, hmg, hn⟩ := hn
  have hvo : getGoodsVoByGoodsId db g = .ok (some (GoodsVo.join mg (some a))) := by
    rw [getGoodsVoByGoodsId_eq]; simp [ha, hmg]
  exact ⟨_, n, hvo, (getGoodsVoByGoodsId_some hvo).1, hn, by simp [Db.stock, hmg, hn]⟩

/-! ### `reduceStock` -/

theorem inStock_iff {g : Long} {r : MiaoshaGoods} :
    inStock (some g) r = true ↔ r.goodsId = some g ∧ ∃ n, r.stockCount = some n ∧ 0 < n := by
  obtain ⟨g', n, -, -, -⟩ := r
  cases g' <;> cases n <;> simp [inStock]

theorem inStock_none (r : MiaoshaGoods) : inStock none r = false := rfl

/-- The stock the update finds decides it: nothing happens unless it is positive. -/
theorem reduceStock_sold_out {db : Db} {g : Option Long} (h : ∀ n, db.stock g = some n → n ≤ 0) :
    reduceStock db { goodsId := g } = (0, db) := by
  have hno : ∀ r ∈ db.miaoshaGoods.rows, inStock g r = false := by
    intro r hr
    cases g with
    | none => exact inStock_none r
    | some g =>
      rw [Bool.eq_false_iff]
      intro hin
      obtain ⟨hid, n, hn, hpos⟩ := inStock_iff.1 hin
      have hfind : db.miaoshaGoods.find? g = some r := db.miaoshaGoods.find?_of_mem hr hid
      have := h n (by simp [Db.stock, hfind, hn])
      omega
  have hcount : db.miaoshaGoods.rows.countP (inStock g) = 0 := by
    rw [List.countP_eq_zero]
    intro r hr
    simp [hno r hr]
  have hrows : db.miaoshaGoods.rows.map (takeOne g) = db.miaoshaGoods.rows := by
    conv_rhs => rw [← List.map_id db.miaoshaGoods.rows]
    apply List.map_congr_left
    intro r hr
    simp [takeOne, hno r hr]
  have htable : db.miaoshaGoods.update (takeOne g) (fun r => by unfold takeOne; split <;> rfl) =
      db.miaoshaGoods := Table.ext_rows hrows
  simp only [reduceStock, hcount, htable]

/-- With a positive stock one row is updated. -/
theorem reduceStock_in_stock {db : Db} {g : Option Long} {n : Int} (h : db.stock g = some n)
    (hn : 0 < n) :
    (reduceStock db { goodsId := g }).1 = 1 := by
  cases g with
  | none => simp [Db.stock] at h
  | some g =>
    simp only [Db.stock, Option.bind_some, Option.bind_eq_some_iff] at h
    obtain ⟨mg, hmg, hs⟩ := h
    have hsel : db.miaoshaGoods.select g = [mg] := by rw [Table.select_eq, hmg]; rfl
    have hcount : db.miaoshaGoods.rows.countP (inStock (some g)) =
        (db.miaoshaGoods.select g).countP (inStock (some g)) := by
      rw [Table.select, List.countP_filter]
      apply List.countP_congr
      intro r _
      simp only [Bool.and_eq_true, decide_eq_true_eq, iff_self_and]
      exact fun hin => (inStock_iff.1 hin).1
    have hin : inStock (some g) mg = true := inStock_iff.2 ⟨Table.key_of_find? hmg, n, hs, hn⟩
    simp [reduceStock, hcount, hsel, hin]

/-- The stocks after the update: one less for the goods, if it had one left. -/
theorem stock_reduceStock (db : Db) (g g' : Option Long) :
    (reduceStock db { goodsId := g }).2.stock g' =
      if g' = g then (db.stock g).map fun n => if 0 < n then n - 1 else n else db.stock g' := by
  cases g' with
  | none => cases g <;> rfl
  | some g' =>
    simp only [reduceStock, Db.stock, Option.bind_some, Table.find?_update]
    cases hmg : db.miaoshaGoods.find? g' with
    | none =>
      split
      · next he => subst he; simp [hmg]
      · rfl
    | some mg =>
      have hid := Table.key_of_find? hmg
      split
      · next he =>
        subst he
        cases hn : mg.stockCount with
        | none => simp [takeOne, inStock, hid, hmg, hn]
        | some n =>
          by_cases hpos : 0 < n
          · simp [takeOne, inStock, hid, hmg, hn, hpos]
          · simp [takeOne, inStock, hid, hmg, hn, hpos]
      · next he =>
        have : inStock g mg = false := by
          cases g with
          | none => rfl
          | some g =>
            rw [Bool.eq_false_iff]
            intro hin
            rw [(inStock_iff.1 hin).1] at hid
            exact he hid.symm
        simp [takeOne, this]

@[simp] theorem goods_reduceStock (db : Db) (g : MiaoshaGoods) :
    (reduceStock db g).2.goods = db.goods := rfl

@[simp] theorem orderInfo_reduceStock (db : Db) (g : MiaoshaGoods) :
    (reduceStock db g).2.orderInfo = db.orderInfo := rfl

@[simp] theorem miaoshaOrder_reduceStock (db : Db) (g : MiaoshaGoods) :
    (reduceStock db g).2.miaoshaOrder = db.miaoshaOrder := rfl

end GoodsMapper

namespace OrderMapper

@[simp] theorem goods_insert (db : Db) (o : OrderInfo) : (insert db o).2.goods = db.goods := rfl

@[simp] theorem stock_insert (db : Db) (o : OrderInfo) (g : Option Long) :
    (insert db o).2.stock g = db.stock g := rfl

@[simp] theorem miaoshaOrder_insert (db : Db) (o : OrderInfo) :
    (insert db o).2.miaoshaOrder = db.miaoshaOrder := rfl

/-- The lookup never finds two orders: the unique key allows one. -/
theorem getMiaoshaOrderByUserIdGoodsId_eq (db : Db) (u g : Long) :
    getMiaoshaOrderByUserIdGoodsId db u g = .ok (db.miaoshaOrder.find? (u, g)) := by
  have : db.miaoshaOrder.rows.filter (fun o => o.userId = some u ∧ o.goodsId = some g) =
      db.miaoshaOrder.select (u, g) := by
    unfold Table.select
    apply List.filter_congr
    intro o _
    simp only [uidGid_eq_some]
  rw [getMiaoshaOrderByUserIdGoodsId, this, Table.select_eq, selectOne_toList]

theorem hasOrder_iff_find? {db : Db} {u g : Long} :
    db.HasOrder u g ↔ (db.miaoshaOrder.find? (u, g)).isSome :=
  Table.has_iff_find?

end OrderMapper

end CfsShop
