/-
`orderServiceImpl`: what a purchase writes, in the order it writes it.

`miaosha` calls `createOrder` on `this`, past the Spring proxy, so the
`@Transactional` of `createOrder` has no effect and every statement below
commits by itself. That is why an exception keeps the store as it was left:
`ShopM` is exceptions over state, not state over exceptions.
-/
import CfsShop.Mapper
import CfsShop.Lib.Prog
import Mathlib.Logic.Function.Basic

namespace CfsShop

/-- The Redis data of the sale. -/
structure Redis where
  /-- `RMap` `com.miaosha.model.MiaoshaOrder`, by `orderKey`. -/
  miaoshaOrder : String → Option MiaoshaOrder
  /-- `RMap` `is_goods_over`. -/
  isGoodsOver : Long → Option Bool
  /-- `RMap` `miao_sha_user`. -/
  miaoShaUser : Long → Option MiaoshaUser
  /-- `RAtomicLong`s by name; one never set reads 0. -/
  atomicLong : String → Int

/-- What the consumers share. -/
structure Shop where
  db : Db
  redis : Redis

/-- A shop with one goods, number 1, `n` of it in stock, and no orders yet. -/
def Shop.one (n : Int) : Shop where
  db :=
    { goods := ⟨[{ id := 1, goodsName := some "iphoneX" }], by simp⟩
      miaoshaGoods := ⟨[{ goodsId := some 1, stockCount := some n, miaoshaPrice := some 1 }], by simp⟩
      orderInfo := ⟨[], 1, by simp, by simp⟩
      miaoshaOrder := ⟨[], by simp⟩ }
  redis :=
    { miaoshaOrder := fun _ => none
      isGoodsOver := fun _ => none
      miaoShaUser := fun _ => none
      atomicLong := fun _ => 0 }

/-- A shop with two goods, numbers 1 and 2, and no orders yet. -/
def Shop.two (n n' : Int) : Shop where
  db :=
    { goods := ⟨[{ id := 1, goodsName := some "iphoneX" }, { id := 2, goodsName := some "mate10" }],
      by simp⟩
      miaoshaGoods := ⟨[{ goodsId := some 1, stockCount := some n, miaoshaPrice := some 1 },
        { goodsId := some 2, stockCount := some n', miaoshaPrice := some 1 }], by simp⟩
      orderInfo := ⟨[], 1, by simp, by simp⟩
      miaoshaOrder := ⟨[], by simp⟩ }
  redis := (Shop.one 0).redis

abbrev ShopM := Prog Ex Shop

/-- Unboxing, or calling a method on, a reference that may be null. -/
def nonNull {σ α : Type} : Option α → Prog Ex σ α
  | some a => return a
  | none => throw .nullPointer

@[simp] theorem exec_nonNull_some {σ α : Type} (a : α) (s : σ) :
    Prog.exec (nonNull (some a)) s = (.ok a, s) := rfl

@[simp] theorem exec_nonNull_none {σ α : Type} (s : σ) :
    Prog.exec (nonNull (none : Option α)) s = (.error .nullPointer, s) := rfl

namespace ShopM

/-- A query: it reads the database and may throw. -/
def query {α : Type} (f : Db → Except Ex α) : ShopM α := do
  let s ← get
  match f s.db with
  | .ok a => return a
  | .error e => throw e

/-- A statement that changes the database and cannot fail. -/
def update {α : Type} (f : Db → α × Db) : ShopM α := do
  let s ← get
  set { s with db := (f s.db).2 }
  return (f s.db).1

/-- A statement the database may refuse. -/
def tryUpdate (f : Db → Except Ex Db) : ShopM Unit := do
  let s ← get
  match f s.db with
  | .ok db => set { s with db }
  | .error e => throw e

/-- A Redis command without an answer. -/
def command (f : Redis → Redis) : ShopM Unit := modify fun s => { s with redis := f s.redis }

@[simp] theorem exec_query {α : Type} (f : Db → Except Ex α) (s : Shop) :
    Prog.exec (query f) s = (f s.db, s) := by
  simp only [query, Prog.exec_bind, Prog.exec_get]
  cases f s.db <;> rfl

@[simp] theorem exec_update {α : Type} (f : Db → α × Db) (s : Shop) :
    Prog.exec (update f) s = (.ok (f s.db).1, { s with db := (f s.db).2 }) := by
  simp only [update, Prog.exec_bind, Prog.exec_get, Prog.exec_set, Prog.exec_pure]

theorem exec_tryUpdate (f : Db → Except Ex Db) (s : Shop) :
    Prog.exec (tryUpdate f) s = match f s.db with
      | .ok db => (.ok (), { s with db })
      | .error e => (.error e, s) := by
  simp only [tryUpdate, Prog.exec_bind, Prog.exec_get]
  cases f s.db <;> rfl

@[simp] theorem exec_command (f : Redis → Redis) (s : Shop) :
    Prog.exec (command f) s = (.ok (), { s with redis := f s.redis }) := rfl

end ShopM

/-- `RMap.put` on the map of orders. -/
def Redis.putMiaoshaOrder (key : String) (o : MiaoshaOrder) (r : Redis) : Redis :=
  { r with miaoshaOrder := Function.update r.miaoshaOrder key (some o) }

/-- `RMap.put` on `is_goods_over`. -/
def Redis.putGoodsOver (goodsId : Long) (r : Redis) : Redis :=
  { r with isGoodsOver := Function.update r.isGoodsOver goodsId (some true) }

namespace OrderService

/-- The bean `createOrder` fills before its first statement. -/
def newOrderInfo (now : Date) (user : MiaoshaUser) (goods : GoodsVo) : OrderInfo where
  createDate := some now
  deliveryAddrId := some 0
  goodsCount := some 1
  goodsId := goods.id
  goodsName := goods.goodsName
  goodsPrice := goods.miaoshaPrice
  orderChannel := some 1
  status := some 0
  userId := user.id

/-- The bean of its second statement, with the generated id of the first. -/
def newMiaoshaOrder (user : MiaoshaUser) (goods : GoodsVo) (orderId : Option Long) : MiaoshaOrder where
  goodsId := goods.id
  orderId := orderId
  userId := user.id

def createOrder (now : Date) (user : MiaoshaUser) (goods : GoodsVo) : ShopM OrderInfo := do
  let orderInfo := newOrderInfo now user goods
  -- `@SelectKey` writes the generated id back into the bean.
  let id ← ShopM.update fun db => OrderMapper.insert db orderInfo
  let orderInfo := { orderInfo with id := some id }
  let miaoshaOrder := newMiaoshaOrder user goods orderInfo.id
  ShopM.tryUpdate fun db => OrderMapper.insertMiaoshaOrder db miaoshaOrder
  ShopM.command (Redis.putMiaoshaOrder (orderKey user.id goods.id) miaoshaOrder)
  return orderInfo

/-- Redisson refuses a null key. -/
def setGoodsOver (goodsId : Option Long) : ShopM Unit := do
  let goodsId ← nonNull goodsId
  ShopM.command (Redis.putGoodsOver goodsId)

def miaosha (now : Date) (user : MiaoshaUser) (goodsVo : GoodsVo) : ShopM (Option OrderInfo) := do
  let result ← ShopM.update fun db => GoodsMapper.reduceStock db { goodsId := goodsVo.id }
  if result > 0 then
    return some (← createOrder now user goodsVo)
  else
    setGoodsOver goodsVo.id
    return none

/-! ## What a purchase does when nobody disturbs it -/

section Alone

variable {s : Shop} {user : MiaoshaUser} {goods : GoodsVo} {u g : Long} {n : Int}

/-- The database once the unit is taken and the `order_info` row written. -/
def paid (db : Db) (now : Date) (user : MiaoshaUser) (goods : GoodsVo) : Db :=
  (OrderMapper.insert (GoodsMapper.reduceStock db { goodsId := goods.id }).2
    (newOrderInfo now user goods)).2

theorem uidGid_newMiaoshaOrder (hu : user.id = some u) (hg : goods.id = some g) (id : Option Long) :
    (newMiaoshaOrder user goods id).uidGid = some (u, g) := by
  simp [newMiaoshaOrder, MiaoshaOrder.uidGid, hu, hg]

theorem exec_miaosha_sold_out (now : Date) (hg : goods.id = some g)
    (h : ∀ n, s.db.stock (some g) = some n → n ≤ 0) :
    Prog.exec (miaosha now user goods) s = (.ok none, { s with redis := s.redis.putGoodsOver g }) := by
  simp only [miaosha, Prog.exec_bind, ShopM.exec_update, hg, GoodsMapper.reduceStock_sold_out h]
  rfl

theorem exec_miaosha_in_stock (now : Date) (hg : goods.id = some g) (hn : s.db.stock (some g) = some n)
    (hpos : 0 < n) :
    Prog.exec (miaosha now user goods) s =
      match s.db.miaoshaOrder.insert (newMiaoshaOrder user goods (some s.db.orderInfo.next)) with
      | some t => (.ok (some { newOrderInfo now user goods with id := some s.db.orderInfo.next }),
          { db := { paid s.db now user goods with miaoshaOrder := t }
            redis := s.redis.putMiaoshaOrder (orderKey user.id goods.id)
              (newMiaoshaOrder user goods (some s.db.orderInfo.next)) })
      | none => (.error .duplicateKey, { s with db := paid s.db now user goods }) := by
  have hone : (GoodsMapper.reduceStock s.db { goodsId := goods.id }).1 = 1 := by
    rw [hg]; exact GoodsMapper.reduceStock_in_stock hn hpos
  simp only [miaosha, createOrder, Prog.exec_bind, ShopM.exec_update, hone, gt_iff_lt, Nat.one_pos,
    if_true, ShopM.exec_tryUpdate, OrderMapper.insertMiaoshaOrder]
  cases h : s.db.miaoshaOrder.insert (newMiaoshaOrder user goods (some s.db.orderInfo.next)) with
  | none => simp only [OrderMapper.insert, GoodsMapper.reduceStock, h, paid]
  | some t =>
    simp only [OrderMapper.insert, GoodsMapper.reduceStock, h, paid]
    rfl

end Alone

end OrderService

end CfsShop
