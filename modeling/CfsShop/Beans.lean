/-
The beans the flash sale passes around (`com.miaosha.model`), the answers it
gives (`com.whpu.util.json`), and the constants its parts agree on.

A boxed field is nullable and so an `Option`; a `long` is an `Int`, nothing
here computes near its bounds. Prices are `decimal(10,2)` columns carried
through unread, so they are kept in cents. Dates are milliseconds.
-/
import Mathlib.Tactic.Common

namespace CfsShop

abbrev Long := Int
abbrev Date := Int
abbrev Price := Int

/-- The exceptions the modelled code can end with. -/
inductive Ex
  | nullPointer
  /-- MyBatis: a query for one object found several. -/
  | tooManyResults
  /-- MySQL: an insert met a taken unique key. -/
  | duplicateKey
  /-- RocketMQ: `send` failed. -/
  | mqClient
  deriving DecidableEq, Repr

/-- A row of `goods`, less the columns neither the sale nor the detail page reads. -/
structure Goods where
  id : Long
  goodsName : Option String
  goodsImg : Option String := none
  goodsPrice : Option Price := none
  deriving DecidableEq, Repr

/-- A row of `miaosha_goods`, and the bean `reduceStock` takes. -/
structure MiaoshaGoods where
  goodsId : Option Long := none
  stockCount : Option Int := none
  startDate : Option Date := none
  endDate : Option Date := none
  miaoshaPrice : Option Price := none
  deriving DecidableEq, Repr

/-- A goods with its sale: a row of `miaosha_goods` left joined with `goods`. -/
structure GoodsVo where
  id : Option Long
  goodsName : Option String
  goodsImg : Option String
  goodsPrice : Option Price
  stockCount : Option Int
  startDate : Option Date
  endDate : Option Date
  miaoshaPrice : Option Price
  deriving DecidableEq, Repr

/-- A user, less what only the pages show. -/
structure MiaoshaUser where
  id : Option Long
  password : Option String := none
  salt : Option String := none
  deriving DecidableEq, Repr

/-- A row of `order_info`, and the bean `insert` takes, whose `id` is null until the
key is generated. `pay_date` is never set. -/
structure OrderInfo where
  id : Option Long := none
  userId : Option Long
  goodsId : Option Long
  deliveryAddrId : Option Long
  goodsName : Option String
  goodsCount : Option Int
  goodsPrice : Option Price
  orderChannel : Option Int
  status : Option Int
  createDate : Option Date
  deriving DecidableEq, Repr

/-- A row of `miaosha_order`, less its own generated id, which nothing reads. -/
structure MiaoshaOrder where
  userId : Option Long
  orderId : Option Long
  goodsId : Option Long
  deriving DecidableEq, Repr

/-- What a request puts in the queue. -/
structure MiaoshaMessage where
  user : Option MiaoshaUser
  goodsId : Long
  deriving DecidableEq, Repr

/-- The session of a request (`com.whpu.web.pojo`). -/
structure SessionUser where
  userId : Option Long
  deriving DecidableEq, Repr

/-! ## Answers -/

structure CodeMsg where
  code : Int
  msg : String
  deriving DecidableEq, Repr

namespace CodeMsg

def SESSION_ERROR : CodeMsg := ⟨500210, "Session不存在或者已经失效"⟩
def MIAO_SHA_OVER : CodeMsg := ⟨500500, "商品已经秒杀完毕"⟩
def REPEATE_MIAOSHA : CodeMsg := ⟨500501, "不能重复秒杀"⟩

end CodeMsg

structure HttpResponse (α : Type) where
  code : Int
  msg : Option String
  data : Option α
  deriving DecidableEq, Repr

namespace HttpResponse

/-- A success leaves `code` at Java's default 0 and `msg` null. -/
def success {α : Type} (data : α) : HttpResponse α := ⟨0, none, some data⟩

def error {α : Type} (codeMsg : CodeMsg) : HttpResponse α := ⟨codeMsg.code, some codeMsg.msg, none⟩

end HttpResponse

/-! ## Constants -/

namespace Info

def miaoshaGoodsStock : String := "miaoshaGoodsStock"

end Info

namespace MQConfig

def MIAOSHA_QUEUE : String := "miaosha_queue"

end MQConfig

/-- Java's `"" + x` for a boxed `Long`. -/
def Long.text : Option Long → String
  | none => "null"
  | some n => toString n

/-- The key of the Redis map of orders, built alike by the order service and the controller. -/
def orderKey (userId goodsId : Option Long) : String := Long.text userId ++ "_" ++ Long.text goodsId

end CfsShop
