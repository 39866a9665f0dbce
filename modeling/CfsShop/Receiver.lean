/-
`MQReceiver`: the listener `consumeMessage`, as a whole and cut at its
statements.

The cut (`Frame`) is what runs when several consumers share the shop: between
two frames anything else may happen. A frame keeps the Java locals that are
live there. `alone` says the cut is faithful: a consumer that nobody
disturbs does exactly what `consumeMessage` does.
-/
import CfsShop.OrderService
import CfsShop.Lib.Run
import Mathlib.Logic.Relation

namespace CfsShop

namespace MQReceiver

/-- `consumeMessage` on the decoded bodies. `clock i` is what `new Date()` gives
while message `i` is handled. -/
def consumeMessage (clock : Nat → Date) : List MiaoshaMessage → ShopM Unit
  | [] => return ()
  | m :: msgs => do
    let goods ← nonNull (← ShopM.query fun db => GoodsMapper.getGoodsVoByGoodsId db m.goodsId)
    let stock ← nonNull goods.stockCount
    if stock ≤ 0 then
      return () -- `break`
    else
      let user ← nonNull m.user
      let userId ← nonNull user.id
      let order ← ShopM.query fun db => OrderMapper.getMiaoshaOrderByUserIdGoodsId db userId m.goodsId
      if order.isSome then
        consumeMessage (fun i => clock (i + 1)) msgs -- `continue`
      else
        let _ ← OrderService.miaosha (clock 0) user goods
        consumeMessage (fun i => clock (i + 1)) msgs

end MQReceiver

/-- The locals of one round of the loop, once the user and the goods are known not
to be null. -/
structure Locals where
  user : MiaoshaUser
  userId : Long
  goods : GoodsVo
  goodsId : Long
  /-- The messages of the batch after this one. -/
  rest : List MiaoshaMessage
  user_id : user.id = some userId
  goods_id : goods.id = some goodsId

/-- The message the round is about. -/
def Locals.message (l : Locals) : MiaoshaMessage := ⟨some l.user, l.goodsId⟩

theorem Db.stock_paid {db : Db} {n : Int} {l : Locals} (now : Date)
    (hn : db.stock (some l.goodsId) = some n) (hpos : 0 < n) (g : Long) :
    (OrderService.paid db now l.user l.goods).stock (some g) =
      if g = l.goodsId then some (n - 1) else db.stock (some g) := by
  rw [OrderService.paid, OrderMapper.stock_insert, GoodsMapper.stock_reduceStock, l.goods_id]
  by_cases hg : g = l.goodsId
  · subst hg
    simp [hn, hpos]
  · simp [hg]

/-! ## One round, whole -/

namespace MQReceiver

variable {s : Shop} {m : MiaoshaMessage} {msgs : List MiaoshaMessage} {goods : GoodsVo} {n : Int}

theorem exec_consumeMessage_no_goods (clock : Nat → Date)
    (hgoods : GoodsMapper.getGoodsVoByGoodsId s.db m.goodsId = .ok none) :
    (consumeMessage clock (m :: msgs)).exec s = (.error .nullPointer, s) := by
  simp only [consumeMessage, Prog.exec_bind, ShopM.exec_query, hgoods, exec_nonNull_none]

theorem exec_consumeMessage_no_stock (clock : Nat → Date)
    (hgoods : GoodsMapper.getGoodsVoByGoodsId s.db m.goodsId = .ok (some goods))
    (hn : goods.stockCount = none) :
    (consumeMessage clock (m :: msgs)).exec s = (.error .nullPointer, s) := by
  simp only [consumeMessage, Prog.exec_bind, ShopM.exec_query, hgoods, exec_nonNull_some, hn,
    exec_nonNull_none]

theorem exec_consumeMessage_sold_out (clock : Nat → Date)
    (hgoods : GoodsMapper.getGoodsVoByGoodsId s.db m.goodsId = .ok (some goods))
    (hn : goods.stockCount = some n)
    (hle : n ≤ 0) : (consumeMessage clock (m :: msgs)).exec s = (.ok (), s) := by
  simp only [consumeMessage, Prog.exec_bind, ShopM.exec_query, hgoods, exec_nonNull_some, hn,
    if_pos hle, Prog.exec_pure]

theorem exec_consumeMessage_no_user (clock : Nat → Date)
    (hgoods : GoodsMapper.getGoodsVoByGoodsId s.db m.goodsId = .ok (some goods))
    (hn : goods.stockCount = some n) (hpos : 0 < n) (hu : m.user.bind (·.id) = none) :
    (consumeMessage clock (m :: msgs)).exec s = (.error .nullPointer, s) := by
  have hle : ¬ n ≤ 0 := by omega
  obtain ⟨user, g⟩ := m
  cases user with
  | none =>
    simp only [consumeMessage, Prog.exec_bind, ShopM.exec_query, hgoods, exec_nonNull_some, hn,
      if_neg hle, exec_nonNull_none]
  | some user =>
    have hid : user.id = none := hu
    simp only [consumeMessage, Prog.exec_bind, ShopM.exec_query, hgoods, exec_nonNull_some, hn,
      if_neg hle, hid, exec_nonNull_none]

theorem exec_consumeMessage_in_stock (clock : Nat → Date) {l : Locals}
    (hgoods : GoodsMapper.getGoodsVoByGoodsId s.db m.goodsId = .ok (some l.goods))
    (hn : l.goods.stockCount = some n) (hpos : 0 < n) (hm : m = l.message) :
    (consumeMessage clock (m :: msgs)).exec s =
      if s.db.HasOrder l.userId l.goodsId then (consumeMessage (fun i => clock (i + 1)) msgs).exec s
      else match (OrderService.miaosha (clock 0) l.user l.goods).exec s with
        | (.ok _, s') => (consumeMessage (fun i => clock (i + 1)) msgs).exec s'
        | (.error e, s') => (.error e, s') := by
  have hle : ¬ n ≤ 0 := by omega
  subst hm
  simp only [Locals.message] at hgoods
  simp only [consumeMessage, Locals.message, Prog.exec_bind, ShopM.exec_query, hgoods,
    exec_nonNull_some, hn, if_neg hle, l.user_id, OrderMapper.getMiaoshaOrderByUserIdGoodsId_eq,
      OrderMapper.hasOrder_iff_find?]
  split
  · rfl
  · rw [Prog.exec_bind]
    rcases (OrderService.miaosha (clock 0) l.user l.goods).exec s with ⟨_ | _, _⟩ <;> rfl

end MQReceiver

/-! ## Cut at the statements -/

/-- Where a consumer stands: the statement it runs next. -/
inductive Frame
  /-- `getGoodsVoByGoodsId` for the first message; with none left the listener has returned. -/
  | loop (msgs : List MiaoshaMessage)
  | getMiaoshaOrder (l : Locals)
  | reduceStock (l : Locals)
  /-- `createOrder` from here on: the `order_info` insert. -/
  | insert (l : Locals)
  | lastInsertId (l : Locals) (id : Long)
  | insertMiaoshaOrder (l : Locals) (orderId : Long)
  | putMiaoshaOrder (l : Locals) (o : MiaoshaOrder)
  | setGoodsOver (l : Locals)
  | threw (e : Ex)

/-- What a step reports to the history. -/
inductive Event
  /-- `reduceStock` took a unit on behalf of the user. -/
  | reduced (userId goodsId : Long)
  /-- The message at hand was turned away because the goods was sold out. -/
  | turnedAway (m : MiaoshaMessage)
  /-- The unique key refused the `miaosha_order` row of a unit already taken. -/
  | refused (userId goodsId : Long)
  deriving DecidableEq, Repr

namespace Frame

/-- One statement, and the code up to the next one. `none` when there is none. -/
def step (now : Date) (s : Shop) : Frame → Option (Shop × Frame × List Event)
  | loop [] => none
  | loop (m :: rest) =>
    match h : GoodsMapper.getGoodsVoByGoodsId s.db m.goodsId with
    | .error e => some (s, threw e, [])
    | .ok none => some (s, threw .nullPointer, [])
    | .ok (some goods) =>
      match goods.stockCount with
      | none => some (s, threw .nullPointer, [])
      | some stock =>
        if stock ≤ 0 then some (s, loop [], [.turnedAway m])
        else
          match m.user with
          | none => some (s, threw .nullPointer, [])
          | some user =>
            match hu : user.id with
            | none => some (s, threw .nullPointer, [])
            | some userId =>
              some (s, getMiaoshaOrder
                { user, userId, goods, goodsId := m.goodsId, rest, user_id := hu,
                  goods_id := (GoodsMapper.getGoodsVoByGoodsId_some h).1 }, [])
  | getMiaoshaOrder l =>
    match OrderMapper.getMiaoshaOrderByUserIdGoodsId s.db l.userId l.goodsId with
    | .error e => some (s, threw e, [])
    | .ok (some _) => some (s, loop l.rest, [])
    | .ok none => some (s, reduceStock l, [])
  | reduceStock l =>
    let (result, db) := GoodsMapper.reduceStock s.db { goodsId := l.goods.id }
    if result > 0 then some ({ s with db }, insert l, [.reduced l.userId l.goodsId])
    else some ({ s with db }, setGoodsOver l, [.turnedAway l.message])
  | insert l =>
    let (id, db) := OrderMapper.insert s.db (OrderService.newOrderInfo now l.user l.goods)
    some ({ s with db }, lastInsertId l id, [])
  | lastInsertId l id => some (s, insertMiaoshaOrder l id, [])
  | insertMiaoshaOrder l orderId =>
    let o := OrderService.newMiaoshaOrder l.user l.goods (some orderId)
    match OrderMapper.insertMiaoshaOrder s.db o with
    | .ok db => some ({ s with db }, putMiaoshaOrder l o, [])
    | .error e => some (s, threw e, [.refused l.userId l.goodsId])
  | putMiaoshaOrder l o =>
    some ({ s with redis := s.redis.putMiaoshaOrder (orderKey l.user.id l.goods.id) o },
      loop l.rest, [])
  | setGoodsOver l => some ({ s with redis := s.redis.putGoodsOver l.goodsId }, loop l.rest, [])
  | threw _ => none

/-- What one statement can do. -/
inductive Step (now : Date) (s : Shop) : Frame → Shop → Frame → List Event → Prop
  /-- A goods not in the sale, a NULL stock, or a message without a user. -/
  | failed {m rest e} : Step now s (loop (m :: rest)) s (threw e) []
  | soldOut {m rest n} : s.db.stock (some m.goodsId) = some n → n ≤ 0 →
      Step now s (loop (m :: rest)) s (loop []) [.turnedAway m]
  | lookedUp {m rest n} {l : Locals} : s.db.stock (some m.goodsId) = some n → 0 < n →
      m = l.message → rest = l.rest → Step now s (loop (m :: rest)) s (getMiaoshaOrder l) []
  | repeated {l : Locals} : s.db.HasOrder l.userId l.goodsId →
      Step now s (getMiaoshaOrder l) s (loop l.rest) []
  | notYet {l : Locals} : ¬ s.db.HasOrder l.userId l.goodsId →
      Step now s (getMiaoshaOrder l) s (reduceStock l) []
  | reduced {n} {l : Locals} : s.db.stock (some l.goodsId) = some n → 0 < n →
      Step now s (reduceStock l)
        { s with db := (GoodsMapper.reduceStock s.db { goodsId := some l.goodsId }).2 }
        (insert l) [.reduced l.userId l.goodsId]
  | tooLate {l : Locals} : (∀ n, s.db.stock (some l.goodsId) = some n → n ≤ 0) →
      Step now s (reduceStock l) s (setGoodsOver l) [.turnedAway l.message]
  | inserted {l : Locals} :
      Step now s (insert l)
        { s with db := (OrderMapper.insert s.db (OrderService.newOrderInfo now l.user l.goods)).2 }
        (lastInsertId l s.db.orderInfo.next) []
  | keyed {l : Locals} {id} : Step now s (lastInsertId l id) s (insertMiaoshaOrder l id) []
  | ordered {l : Locals} {id t} :
      s.db.miaoshaOrder.insert (OrderService.newMiaoshaOrder l.user l.goods (some id)) = some t →
      Step now s (insertMiaoshaOrder l id) { s with db := { s.db with miaoshaOrder := t } }
        (putMiaoshaOrder l (OrderService.newMiaoshaOrder l.user l.goods (some id))) []
  | duplicate {l : Locals} {id} : s.db.HasOrder l.userId l.goodsId →
      Step now s (insertMiaoshaOrder l id) s (threw .duplicateKey) [.refused l.userId l.goodsId]
  | put {l : Locals} {o} :
      Step now s (putMiaoshaOrder l o)
        { s with redis := s.redis.putMiaoshaOrder (orderKey l.user.id l.goods.id) o } (loop l.rest) []
  | marked {l : Locals} :
      Step now s (setGoodsOver l) { s with redis := s.redis.putGoodsOver l.goodsId } (loop l.rest) []

theorem uidGid_newMiaoshaOrder (l : Locals) (id : Option Long) :
    (OrderService.newMiaoshaOrder l.user l.goods id).uidGid = some (l.userId, l.goodsId) :=
  OrderService.uidGid_newMiaoshaOrder l.user_id l.goods_id id

theorem step_loop_sold_out (now : Date) {s : Shop} {m : MiaoshaMessage} {rest : List MiaoshaMessage}
    {goods : GoodsVo}
    {n : Int} (hgoods : GoodsMapper.getGoodsVoByGoodsId s.db m.goodsId = .ok (some goods))
    (hn : goods.stockCount = some n) (hle : n ≤ 0) :
    step now s (loop (m :: rest)) = some (s, loop [], [.turnedAway m]) := by
  simp only [step]
  split
  · next h => rw [hgoods] at h; cases h
  · next h => rw [hgoods] at h; cases h
  · next h =>
    rw [hgoods] at h
    cases h
    simp only [hn, if_pos hle]

theorem step_loop_in_stock (now : Date) {s : Shop} {m : MiaoshaMessage} {l : Locals} {n : Int}
    (hgoods : GoodsMapper.getGoodsVoByGoodsId s.db m.goodsId = .ok (some l.goods))
    (hn : l.goods.stockCount = some n) (hpos : 0 < n) (hm : m = l.message) :
    step now s (loop (m :: l.rest)) = some (s, getMiaoshaOrder l, []) := by
  obtain ⟨user, userId, goods, goodsId, rest, hu, hg⟩ := l
  subst hm
  simp only [step]
  split
  · next h => rw [hgoods] at h; cases h
  · next h => rw [hgoods] at h; cases h
  · next h =>
    rw [hgoods] at h
    cases h
    simp only at hn
    have hle : ¬ n ≤ 0 := by omega
    simp only [hn, if_neg hle, Locals.message]
    split
    · next hid => rw [hu] at hid; cases hid
    · next hid => rw [hu] at hid; cases hid; rfl

theorem step_loop_threw (now : Date) {s : Shop} {m : MiaoshaMessage} {rest : List MiaoshaMessage}
    (h : ∀ vo, GoodsMapper.getGoodsVoByGoodsId s.db m.goodsId = .ok (some vo) →
      ∀ n, vo.stockCount = some n →
      0 < n ∧ m.user.bind (·.id) = none) :
    step now s (loop (m :: rest)) = some (s, threw .nullPointer, []) := by
  simp only [step]
  split
  · next e hgoods => rw [GoodsMapper.getGoodsVoByGoodsId_eq] at hgoods; cases hgoods
  · rfl
  · next goods hgoods =>
    split
    · rfl
    · next n hn =>
      obtain ⟨hpos, hu⟩ := h goods hgoods n hn
      have hle : ¬ n ≤ 0 := by omega
      rw [if_neg hle]
      split
      · rfl
      · next user huser =>
        split
        · rfl
        · next id hid => simp [huser, hid] at hu

theorem step_getMiaoshaOrder (now : Date) {s : Shop} {l : Locals} :
    step now s (getMiaoshaOrder l) =
      some (s, if s.db.HasOrder l.userId l.goodsId then loop l.rest else reduceStock l, []) := by
  simp only [step, OrderMapper.getMiaoshaOrderByUserIdGoodsId_eq, OrderMapper.hasOrder_iff_find?]
  cases s.db.miaoshaOrder.find? (l.userId, l.goodsId) <;> simp

theorem step_reduceStock (now : Date) {s : Shop} {l : Locals} {n : Int}
    (hn : s.db.stock (some l.goodsId) = some n) (hpos : 0 < n) :
    step now s (reduceStock l) =
      some ({ s with db := (GoodsMapper.reduceStock s.db { goodsId := some l.goodsId }).2 }, insert l,
        [.reduced l.userId l.goodsId]) := by
  simp only [step, l.goods_id, GoodsMapper.reduceStock_in_stock hn hpos]
  rfl

theorem step_reduceStock_sold_out (now : Date) {s : Shop} {l : Locals}
    (h : ∀ n, s.db.stock (some l.goodsId) = some n → n ≤ 0) :
    step now s (reduceStock l) = some (s, setGoodsOver l, [.turnedAway l.message]) := by
  simp only [step, l.goods_id, GoodsMapper.reduceStock_sold_out h]
  rfl

theorem step_insertMiaoshaOrder (now : Date) {s : Shop} {l : Locals} (id : Long)
    (h : ¬ s.db.HasOrder l.userId l.goodsId) :
    ∃ t, s.db.miaoshaOrder.insert (OrderService.newMiaoshaOrder l.user l.goods (some id)) = some t ∧
      step now s (insertMiaoshaOrder l id) =
        some ({ s with db := { s.db with miaoshaOrder := t } },
          putMiaoshaOrder l (OrderService.newMiaoshaOrder l.user l.goods (some id)), []) := by
  obtain ⟨t, ht, -⟩ := Table.insert_of_admits
    ((Table.admits_of_key (uidGid_newMiaoshaOrder l (some id))).2 h)
  exact ⟨t, ht, by simp only [step, OrderMapper.insertMiaoshaOrder, ht]⟩

theorem step_insertMiaoshaOrder_taken (now : Date) {s : Shop} {l : Locals} (id : Long)
    (h : s.db.HasOrder l.userId l.goodsId) :
    step now s (insertMiaoshaOrder l id) =
      some (s, threw .duplicateKey, [.refused l.userId l.goodsId]) := by
  have ht :
      s.db.miaoshaOrder.insert (OrderService.newMiaoshaOrder l.user l.goods (some id)) = none := by
    rw [Table.insert_eq_none, Table.admits_of_key (uidGid_newMiaoshaOrder l _), not_not]
    exact h
  simp only [step, OrderMapper.insertMiaoshaOrder, ht]

theorem step_loop {now : Date} {s s' : Shop} {m : MiaoshaMessage} {rest : List MiaoshaMessage}
    {f' : Frame} {es : List Event} (h : step now s (loop (m :: rest)) = some (s', f', es)) :
    Step now s (loop (m :: rest)) s' f' es := by
  simp only [step] at h
  split at h
  · cases h
    exact .failed
  · cases h
    exact .failed
  next goods hgoods =>
  have hstock := (GoodsMapper.getGoodsVoByGoodsId_some hgoods).2
  split at h
  · cases h
    exact .failed
  next stock hs =>
  rw [hs] at hstock
  split at h
  · next hle =>
    cases h
    exact .soldOut hstock.symm hle
  next hpos =>
  split at h
  · cases h
    exact .failed
  next user huser =>
  split at h
  · cases h
    exact .failed
  next userId hid =>
  cases h
  refine .lookedUp hstock.symm (by omega) ?_ rfl
  obtain ⟨u, g⟩ := m
  simp only at huser
  simp [Locals.message, huser]

/-- The cut code does nothing else. -/
theorem step_spec {now : Date} {s s' : Shop} {f f' : Frame} {es : List Event}
    (h : step now s f = some (s', f', es)) : Step now s f s' f' es := by
  cases f with
  | loop msgs =>
    cases msgs with
    | nil => simp [step] at h
    | cons m rest => exact step_loop h
  | getMiaoshaOrder l =>
    rw [step_getMiaoshaOrder] at h
    by_cases ho : s.db.HasOrder l.userId l.goodsId
    · rw [if_pos ho] at h
      cases h
      exact .repeated ho
    · rw [if_neg ho] at h
      cases h
      exact .notYet ho
  | reduceStock l =>
    by_cases hs : s.db.InStock l.goodsId
    · obtain ⟨n, hn, hpos⟩ := hs
      rw [step_reduceStock now hn hpos] at h
      cases h
      exact .reduced hn hpos
    · have hsold := Db.not_inStock_iff.1 hs
      rw [step_reduceStock_sold_out now hsold] at h
      cases h
      exact .tooLate hsold
  | insert l =>
    cases h
    exact .inserted
  | lastInsertId l id =>
    cases h
    exact .keyed
  | insertMiaoshaOrder l id =>
    by_cases ho : s.db.HasOrder l.userId l.goodsId
    · rw [step_insertMiaoshaOrder_taken now id ho] at h
      cases h
      exact .duplicate ho
    · obtain ⟨t, ht, he⟩ := step_insertMiaoshaOrder now id ho
      rw [he] at h
      cases h
      exact .ordered ht
  | putMiaoshaOrder l o =>
    cases h
    exact .put
  | setGoodsOver l =>
    cases h
    exact .marked
  | threw e => simp [step] at h

end Frame

/-! ## A consumer left alone -/

/-- At most `k` statements, with nobody else around. `clock i` is the time of statement `i`. -/
def Frame.runs : (clock : Nat → Date) → Nat → Shop → Frame → Shop × Frame
  | _, 0, s, f => (s, f)
  | clock, k + 1, s, f =>
    match f.step (clock 0) s with
    | some (s', f', _) => runs (fun i => clock (i + 1)) k s' f'
    | none => (s, f)

namespace Frame

theorem runs_succ {clock : Nat → Date} {k : Nat} {s s' : Shop} {f f' : Frame} {es : List Event}
    (h : f.step (clock 0) s = some (s', f', es)) :
    runs clock (k + 1) s f = runs (fun i => clock (i + 1)) k s' f' := by
  rw [runs, h]

/-- A consumer that has nothing left to run stays as it is. -/
theorem runs_done {clock : Nat → Date} {k : Nat} {s : Shop} {f : Frame}
    (h : ∀ now, f.step now s = none) :
    runs clock k s f = (s, f) := by
  cases k with
  | zero => rfl
  | succ k => rw [runs, h]

/-- One statement, at any time. -/
def Moves (a b : Shop × Frame) : Prop := ∃ now es, a.2.step now a.1 = some (b.1, b.2, es)

theorem Moves.of (now : Date) {s s' : Shop} {f f' : Frame} {es : List Event}
    (h : f.step now s = some (s', f', es)) :
    Moves (s, f) (s', f') := ⟨now, es, h⟩

/-- Where a consumer ends: behind the loop, or with an exception. -/
def ended {α : Type} (rest : List MiaoshaMessage) : Except Ex α → Frame
  | .ok _ => loop rest
  | .error e => threw e

theorem alone_miaosha (now : Date) (s : Shop) (l : Locals) :
    Relation.ReflTransGen Moves (s, reduceStock l)
      (((OrderService.miaosha now l.user l.goods).exec s).2,
        ended l.rest ((OrderService.miaosha now l.user l.goods).exec s).1) := by
  by_cases hs : s.db.InStock l.goodsId
  · obtain ⟨n, hn, hpos⟩ := hs
    rw [OrderService.exec_miaosha_in_stock now l.goods_id hn hpos]
    have h₁ := Moves.of now (step_reduceStock now hn hpos)
    have h₂ := Moves.of
      (s := { s with db := (GoodsMapper.reduceStock s.db { goodsId := some l.goodsId }).2 })
      (f := insert l) now rfl
    have h₃ := Moves.of (s := { s with db := OrderService.paid s.db now l.user l.goods })
      (f := lastInsertId l s.db.orderInfo.next) now rfl
    have hinsert : Relation.ReflTransGen Moves (s, reduceStock l)
        ({ s with db := OrderService.paid s.db now l.user l.goods },
          insertMiaoshaOrder l s.db.orderInfo.next) := by
      refine .head h₁ (.head h₂ ?_)
      rw [OrderService.paid, l.goods_id] at h₃ ⊢
      exact .single h₃
    by_cases ho : s.db.HasOrder l.userId l.goodsId
    · have ht := (Table.admits_of_key (t := s.db.miaoshaOrder)
        (uidGid_newMiaoshaOrder l (some s.db.orderInfo.next))).not.2 (not_not.2 ho)
      rw [Table.insert_eq_none.2 ht]
      exact hinsert.tail (Moves.of now (step_insertMiaoshaOrder_taken now _ ho))
    · obtain ⟨t, ht, he⟩ := step_insertMiaoshaOrder
        (s := { s with db := OrderService.paid s.db now l.user l.goods })
        now s.db.orderInfo.next ho
      have ht' : s.db.miaoshaOrder.insert
        (OrderService.newMiaoshaOrder l.user l.goods (some s.db.orderInfo.next)) =
          some t := ht
      rw [ht']
      exact (hinsert.tail (.of now he)).tail (.of now rfl)
  · have hsold := Db.not_inStock_iff.1 hs
    rw [OrderService.exec_miaosha_sold_out now l.goods_id hsold]
    exact .head (.of now (step_reduceStock_sold_out now hsold)) (.single (.of now rfl))

/-- **The cut is faithful.** A consumer that nobody disturbs gets to where `consumeMessage`
ends, and leaves the shop as `consumeMessage` does. -/
theorem alone (clock : Nat → Date) (msgs : List MiaoshaMessage) (s : Shop) :
    Relation.ReflTransGen Moves (s, loop msgs)
      (((MQReceiver.consumeMessage clock msgs).exec s).2,
        ended [] ((MQReceiver.consumeMessage clock msgs).exec s).1) := by
  induction msgs generalizing clock s with
  | nil => exact .refl
  | cons m msgs ih =>
    have hfail :
        (∀ vo, GoodsMapper.getGoodsVoByGoodsId s.db m.goodsId = .ok (some vo) →
          ∀ n, vo.stockCount = some n →
          0 < n ∧ m.user.bind (·.id) = none) →
        (MQReceiver.consumeMessage clock (m :: msgs)).exec s = (.error .nullPointer, s) →
        Relation.ReflTransGen Moves (s, loop (m :: msgs))
          (((MQReceiver.consumeMessage clock (m :: msgs)).exec s).2,
            ended [] ((MQReceiver.consumeMessage clock (m :: msgs)).exec s).1) := by
      intro h he
      rw [he]
      exact .single (.of 0 (step_loop_threw 0 h))
    rcases hgoods : GoodsMapper.getGoodsVoByGoodsId s.db m.goodsId with e | (_ | goods)
    · rw [GoodsMapper.getGoodsVoByGoodsId_eq] at hgoods
      cases hgoods
    · exact hfail (by simp [hgoods]) (MQReceiver.exec_consumeMessage_no_goods clock hgoods)
    cases hn : goods.stockCount with
    | none =>
      exact hfail (by simp [hgoods, hn])
        (MQReceiver.exec_consumeMessage_no_stock clock hgoods hn)
    | some n =>
      by_cases hle : n ≤ 0
      · rw [MQReceiver.exec_consumeMessage_sold_out clock hgoods hn hle]
        exact .single (.of 0 (step_loop_sold_out 0 hgoods hn hle))
      have hpos : 0 < n := by omega
      cases hid : m.user.bind (·.id) with
      | none =>
        exact hfail (by simp [hgoods, hn, hpos, hid])
          (MQReceiver.exec_consumeMessage_no_user clock hgoods hn hpos hid)
      | some userId =>
        obtain ⟨user, huser, hid⟩ := Option.bind_eq_some_iff.1 hid
        let l : Locals :=
          { user, userId, goods, goodsId := m.goodsId, rest := msgs, user_id := hid,
            goods_id := (GoodsMapper.getGoodsVoByGoodsId_some hgoods).1 }
        have hm : m = l.message := by rw [Locals.message, ← huser]
        rw [MQReceiver.exec_consumeMessage_in_stock clock (l := l) hgoods hn hpos hm]
        have hlook : Moves (s, loop (m :: msgs)) (s, getMiaoshaOrder l) :=
          .of 0 (step_loop_in_stock 0 hgoods hn hpos hm)
        have hcheck : Moves (s, getMiaoshaOrder l) _ := .of 0 (step_getMiaoshaOrder 0)
        refine .head hlook (.head hcheck ?_)
        split
        · exact ih _ s
        · have hbuy := alone_miaosha (clock 0) s l
          rcases hr : (OrderService.miaosha (clock 0) l.user l.goods).exec s with ⟨_ | o, s'⟩
          · rw [hr] at hbuy
            exact hbuy
          · rw [hr] at hbuy
            exact hbuy.trans (ih _ s')

end Frame

/-! ## Consumers sharing the shop -/

/-- Any consumer may start with any batch at any time, so messages come in any
order, repeatedly and at once. The input of a step is the time. -/
def consumers : Machine Shop Frame Date Event where
  allows _ f := match f with
    | .loop _ => true
    | _ => false
  step := Frame.step

abbrev Sale := Pool Shop Frame Event

/-- No consumer has started. -/
def Sale.start (s : Shop) : Sale := ⟨s, [], []⟩

/-- The state the labels lead to from there. Every reachable state is one of these. -/
def Sale.after (s : Shop) (ls : List (Label Frame Date)) : Sale :=
  Run.run (Pool.exec consumers) (Sale.start s) ls

/-- When every listener has returned there is nothing left to do. -/
theorem Sale.quiet_of_frames {p : Sale} {n : Nat} (h : p.frames = List.replicate n (.loop [])) :
    Pool.Quiet consumers p := by
  intro t ht _ now
  have hmem : t.frame ∈ p.frames := List.mem_map_of_mem ht
  rw [h] at hmem
  rw [List.eq_of_mem_replicate hmem]
  rfl

end CfsShop
