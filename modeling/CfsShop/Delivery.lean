/-
Messages delivered one after the other, without failures.

RocketMQ redelivers what the listener does not acknowledge, and the listener
returns null, so a sequence of deliveries has every repetition one can think
of. What such a sequence does is nevertheless simple: for each goods apart, it
gives the stock out first come, first served (`Allotment`), one unit to a user.
`Handled.allotment` is the step of that simulation, `sequential_delivery` its
outcome.
-/
import CfsShop.Ledger
import CfsShop.Lib.Allotment

namespace CfsShop

def MiaoshaMessage.userId (m : MiaoshaMessage) : Option Long := m.user.bind (·.id)

@[simp] theorem Locals.userId_message (l : Locals) : l.message.userId = some l.userId := l.user_id

@[simp] theorem Locals.goodsId_message (l : Locals) : l.message.goodsId = l.goodsId := rfl

namespace Db

/-- A message the listener gets through without an exception: for a goods in the sale, from
a user with an id. -/
def Deliverable (db : Db) (m : MiaoshaMessage) : Prop := db.Sells m.goodsId ∧ m.userId.isSome

instance (db : Db) (m : MiaoshaMessage) : Decidable (db.Deliverable m) :=
  inferInstanceAs (Decidable ((_ ∧ _) ∧ _))

/-- What a round knows of a message that can be delivered. -/
theorem Deliverable.locals {db : Db} {m : MiaoshaMessage} (h : db.Deliverable m)
    (rest : List MiaoshaMessage) :
    ∃ (l : Locals) (n : Int), m = l.message ∧ l.rest = rest ∧
      GoodsMapper.getGoodsVoByGoodsId db m.goodsId = .ok (some l.goods) ∧ l.goods.stockCount = some n ∧
      db.stock (some m.goodsId) = some n := by
  obtain ⟨goods, n, hgoods, hid, hn, hstock⟩ := GoodsMapper.getGoodsVoByGoodsId_of_sells h.1
  obtain ⟨userId, huid⟩ := Option.isSome_iff_exists.1 h.2
  obtain ⟨user, huser, huid⟩ := Option.bind_eq_some_iff.1 huid
  refine ⟨{ user, userId, goods, goodsId := m.goodsId, rest, user_id := huid, goods_id := hid }, n,
    ?_, rfl, hgoods, hn, hstock⟩
  rw [Locals.message, ← huser]

end Db

/-- A message that can be delivered is read without an exception. -/
theorem Frame.step_loop_deliverable {now : Date} {s s' : Shop} {es : List Event} {m : MiaoshaMessage}
    {rest : List MiaoshaMessage} (hd : s.db.Deliverable m) {e : Ex} :
    step now s (loop (m :: rest)) ≠ some (s', threw e, es) := by
  obtain ⟨l, n, hm, rfl, hgoods, hn, -⟩ := hd.locals rest
  intro h
  by_cases hle : n ≤ 0
  · rw [step_loop_sold_out now hgoods hn hle] at h
    cases h
  · rw [step_loop_in_stock now hgoods hn (by omega) hm] at h
    cases h

namespace Db

/-- The users in `miaosha_order` for a goods, in the order of the rows. -/
def holders (g : Long) (rows : List MiaoshaOrder) : List (Option Long) :=
  (rows.filter fun o => o.goodsId = some g).map (·.userId)

/-- The users in `order_info` for a goods, in the order of the rows. -/
def payers (g : Long) (rows : List OrderInfo) : List (Option Long) :=
  (rows.filter fun o => o.goodsId = some g).map (·.userId)

/-- A goods of the sale as units given out. -/
def allotment (db : Db) (g : Long) : Allotment (Option Long) :=
  ⟨(db.stock (some g)).getD 0, holders g db.miaoshaOrder.rows⟩

theorem hasOrder_iff_mem {db : Db} {u g : Long} :
    db.HasOrder u g ↔ some u ∈ holders g db.miaoshaOrder.rows := by
  simp only [HasOrder, Table.Has, holders, uidGid_eq_some, List.mem_map, List.mem_filter,
    decide_eq_true_eq]
  constructor
  · intro h
    obtain ⟨o, ho, hu, hg⟩ := h
    exact ⟨o, ⟨ho, hg⟩, hu⟩
  · intro h
    obtain ⟨o, ⟨ho, hg⟩, hu⟩ := h
    exact ⟨o, ho, hu, hg⟩

theorem holders_concat (g : Long) (rows : List MiaoshaOrder) (o : MiaoshaOrder) :
    holders g (rows ++ [o]) = holders g rows ++ if o.goodsId = some g then [o.userId] else [] := by
  rw [holders, List.filter_append, List.map_append, ← holders, List.filter_singleton]
  by_cases hg : o.goodsId = some g <;> simp [hg]

theorem payers_concat (g : Long) (rows : List OrderInfo) (o : OrderInfo) :
    payers g (rows ++ [o]) = payers g rows ++ if o.goodsId = some g then [o.userId] else [] := by
  rw [payers, List.filter_append, List.map_append, ← payers, List.filter_singleton]
  by_cases hg : o.goodsId = some g <;> simp [hg]

end Db

/-- The users of the messages for a goods, in order. -/
def usersFor (g : Long) (ms : List MiaoshaMessage) : List (Option Long) :=
  (ms.filter fun m => m.goodsId = g).map (·.userId)

theorem usersFor_append (g : Long) (ms ms' : List MiaoshaMessage) :
    usersFor g (ms ++ ms') = usersFor g ms ++ usersFor g ms' := by
  simp [usersFor]

theorem usersFor_cons (g : Long) (m : MiaoshaMessage) (ms : List MiaoshaMessage) :
    usersFor g (m :: ms) = if m.goodsId = g then m.userId :: usersFor g ms else usersFor g ms := by
  simp only [usersFor, List.filter_cons, decide_eq_true_eq]
  split <;> rfl

/-! ## One delivery -/

namespace MQReceiver

/-- The shop after a batch of one. -/
def handle (now : Date) (m : MiaoshaMessage) (s : Shop) : Shop :=
  ((consumeMessage (fun _ => now) [m]).exec s).2

/-- Batches of one, in order. -/
def deliver (clock : Nat → Date) : List MiaoshaMessage → ShopM Unit
  | [] => return ()
  | m :: msgs => do
    consumeMessage (fun _ => clock 0) [m]
    deliver (fun i => clock (i + 1)) msgs

end MQReceiver

/-- What one delivery does. -/
inductive Handled (now : Date) (s : Shop) (m : MiaoshaMessage) : Shop → Prop
  | soldOut {n} : s.db.stock (some m.goodsId) = some n → n ≤ 0 → Handled now s m s
  | repeated {n u} : s.db.stock (some m.goodsId) = some n → 0 < n → m.userId = some u →
      s.db.HasOrder u m.goodsId → Handled now s m s
  | bought {n t} {l : Locals} : s.db.stock (some m.goodsId) = some n → 0 < n → m = l.message →
      GoodsMapper.getGoodsVoByGoodsId s.db m.goodsId = .ok (some l.goods) →
      ¬ s.db.HasOrder l.userId l.goodsId →
      s.db.miaoshaOrder.insert (OrderService.newMiaoshaOrder l.user l.goods
        (some s.db.orderInfo.next)) = some t →
      Handled now s m
        { db := { OrderService.paid s.db now l.user l.goods with miaoshaOrder := t }
          redis := s.redis.putMiaoshaOrder (orderKey l.user.id l.goods.id)
            (OrderService.newMiaoshaOrder l.user l.goods (some s.db.orderInfo.next)) }

theorem Handled.eq_of_sold_out {now : Date} {s s' : Shop} {m : MiaoshaMessage} (h : Handled now s m s')
    (hle : (s.db.allotment m.goodsId).left ≤ 0) : s' = s := by
  cases h with
  | soldOut => rfl
  | repeated => rfl
  | bought hn hpos => simp only [Db.allotment, hn, Option.getD_some] at hle; omega

namespace MQReceiver

/-- A message that can be delivered is handled in one of three ways, and the batch goes on
from there, or ends if the goods is sold out. -/
theorem exec_consumeMessage_cons {s : Shop} {m : MiaoshaMessage} (hv : s.db.Deliverable m)
    (now : Date) :
    ∃ s', Handled now s m s' ∧ ∀ clock msgs, clock 0 = now →
      (consumeMessage clock (m :: msgs)).exec s =
        if (s.db.allotment m.goodsId).left ≤ 0 then (.ok (), s)
        else (consumeMessage (fun i => clock (i + 1)) msgs).exec s' := by
  obtain ⟨l, n, hm, -, hgoods, hn, hstock⟩ := hv.locals []
  have hleft : (s.db.allotment m.goodsId).left = n := by simp [Db.allotment, hstock]
  rw [hleft]
  by_cases hle : n ≤ 0
  · refine ⟨s, .soldOut hstock hle, ?_⟩
    intro clock msgs _
    rw [if_pos hle, exec_consumeMessage_sold_out clock hgoods hn hle]
  have hpos : 0 < n := by omega
  have hgid : m.goodsId = l.goodsId := by rw [hm, l.goodsId_message]
  by_cases ho : s.db.HasOrder l.userId l.goodsId
  · refine ⟨s, .repeated hstock hpos (by rw [hm, l.userId_message]) (by rw [hgid]; exact ho), ?_⟩
    intro clock msgs _
    rw [if_neg hle, exec_consumeMessage_in_stock clock (l := l) hgoods hn hpos hm, if_pos ho]
  · obtain ⟨t, ht, -⟩ := Table.insert_of_admits
      ((Table.admits_of_key (Frame.uidGid_newMiaoshaOrder l (some s.db.orderInfo.next))).2 ho)
    refine ⟨_, .bought hstock hpos hm hgoods ho ht, ?_⟩
    intro clock msgs hclock
    rw [if_neg hle, exec_consumeMessage_in_stock clock (l := l) hgoods hn hpos hm, if_neg ho, hclock,
      OrderService.exec_miaosha_in_stock now l.goods_id (hgid ▸ hstock) hpos, ht]

theorem handle_eq {now : Date} {s s' : Shop} {m : MiaoshaMessage} (h : Handled now s m s')
    (he : ∀ clock msgs, clock 0 = now → (consumeMessage clock (m :: msgs)).exec s =
      if (s.db.allotment m.goodsId).left ≤ 0 then (.ok (), s)
      else (consumeMessage (fun i => clock (i + 1)) msgs).exec s') : handle now m s = s' := by
  rw [handle, he _ _ rfl]
  split
  · next hle => exact (h.eq_of_sold_out hle).symm
  · rfl

section Deliverable

variable {s : Shop} {m : MiaoshaMessage} (hv : s.db.Deliverable m)

include hv

theorem handled (now : Date) : Handled now s m (handle now m s) := by
  obtain ⟨s', hs', he⟩ := exec_consumeMessage_cons hv now
  rw [handle_eq hs' he]
  exact hs'

theorem consumeMessage_cons (clock : Nat → Date) (msgs : List MiaoshaMessage) :
    (consumeMessage clock (m :: msgs)).exec s =
      if (s.db.allotment m.goodsId).left ≤ 0 then (.ok (), s)
      else (consumeMessage (fun i => clock (i + 1)) msgs).exec (handle (clock 0) m s) := by
  obtain ⟨s', hs', he⟩ := exec_consumeMessage_cons hv (clock 0)
  rw [handle_eq hs' he, he clock msgs rfl]

theorem deliver_cons (clock : Nat → Date) (msgs : List MiaoshaMessage) :
    (deliver clock (m :: msgs)).exec s =
      (deliver (fun i => clock (i + 1)) msgs).exec (handle (clock 0) m s) := by
  have hone : (consumeMessage (fun _ => clock 0) [m]).exec s = (.ok (), handle (clock 0) m s) := by
    rw [consumeMessage_cons hv]
    split
    · next hle => rw [(handled hv (clock 0)).eq_of_sold_out hle]
    · rfl
  rw [deliver, Prog.exec_bind, hone]

end Deliverable

end MQReceiver

/-! ## What a delivery does to each goods -/

namespace Handled

variable {now : Date} {s s' : Shop} {m m' : MiaoshaMessage}

/-- The simulation: a message is a comer for its goods, and nothing to the others. -/
theorem allotment (h : Handled now s m s') (g : Long) :
    s'.db.allotment g = if m.goodsId = g then (s.db.allotment g).offer m.userId
      else s.db.allotment g := by
  cases h with
  | soldOut hn hle =>
    split
    · next hg => subst hg; simp [Allotment.offer, Db.allotment, hn, hle]
    · rfl
  | repeated hn hpos hu ho =>
    split
    · next hg =>
      subst hg
      rw [Db.hasOrder_iff_mem] at ho
      simp [Allotment.offer, Db.allotment, hu, ho]
    · rfl
  | @bought n t l hn hpos hm hgoods ho ht =>
    subst hm
    have hrows := (Table.insert_eq_some.1 ht).2
    rw [Db.hasOrder_iff_mem] at ho
    have hstock := Db.stock_paid now hn hpos g
    have hholders : Db.holders g t.rows = Db.holders g s.db.miaoshaOrder.rows ++
        if l.goodsId = g then [some l.userId] else [] := by
      rw [hrows, Db.holders_concat]
      simp [OrderService.newMiaoshaOrder, l.goods_id, l.user_id]
    rw [l.goodsId_message] at hn
    rw [l.userId_message, l.goodsId_message]
    have hs :
        ({ OrderService.paid s.db now l.user l.goods with miaoshaOrder := t } : Db).stock (some g) =
          (OrderService.paid s.db now l.user l.goods).stock (some g) := rfl
    simp only [Db.allotment, hholders, hs, hstock]
    by_cases hg : l.goodsId = g
    · subst hg
      have hle : ¬ n ≤ 0 := by omega
      simp [Allotment.offer, hn, hle, ho]
    · have hg' : ¬ g = l.goodsId := fun he => hg he.symm
      simp [hg, hg']

/-- Both tables gain the same users, and lose none. -/
theorem tables (h : Handled now s m s') (g : Long) :
    ∃ new, Db.holders g s'.db.miaoshaOrder.rows = Db.holders g s.db.miaoshaOrder.rows ++ new ∧
      Db.payers g s'.db.orderInfo.rows = Db.payers g s.db.orderInfo.rows ++ new := by
  cases h with
  | soldOut => exact ⟨[], by simp⟩
  | repeated => exact ⟨[], by simp⟩
  | @bought n t l hn hpos hm hgoods ho ht =>
    refine ⟨if l.goodsId = g then [some l.userId] else [], ?_, ?_⟩
    · rw [(Table.insert_eq_some.1 ht).2, Db.holders_concat]
      simp [OrderService.newMiaoshaOrder, l.goods_id, l.user_id]
    · simp only [OrderService.paid, OrderMapper.insert, GoodsMapper.reduceStock, Serial.rows_insert]
      rw [Db.payers_concat]
      simp [OrderService.newOrderInfo, l.goods_id, l.user_id]

theorem extends_ (h : Handled now s m s') : s.db.Extends s'.db := by
  cases h with
  | soldOut => exact .refl _
  | repeated => exact .refl _
  | @bought n t l hn hpos hm hgoods ho ht =>
    refine ⟨List.prefix_append _ _, ?_⟩
    simp only [(Table.insert_eq_some.1 ht).2]
    exact List.prefix_append _ _

theorem stock_isSome (h : Handled now s m s') (g : Long) :
    (s'.db.stock (some g)).isSome = (s.db.stock (some g)).isSome := by
  cases h with
  | soldOut => rfl
  | repeated => rfl
  | @bought n t l hn hpos hm hgoods ho ht =>
    subst hm
    have hstock := Db.stock_paid now hn hpos g
    show ((OrderService.paid s.db now l.user l.goods).stock (some g)).isSome = _
    rw [hstock]
    split
    · next hg => subst hg; exact (congrArg Option.isSome hn).symm
    · rfl

theorem goods (h : Handled now s m s') : s'.db.goods = s.db.goods := by
  cases h <;> rfl

theorem deliverable (h : Handled now s m s') (hm : s.db.Deliverable m') : s'.db.Deliverable m' :=
  ⟨⟨by rw [h.goods]; exact hm.1.1, by rw [h.stock_isSome]; exact hm.1.2⟩, hm.2⟩

/-- A comer who gains nothing leaves the shop as it was. -/
theorem eq_of_offer (h : Handled now s m s')
    (ho : (s.db.allotment m.goodsId).offer m.userId = s.db.allotment m.goodsId) : s' = s := by
  have ha := h.allotment m.goodsId
  rw [if_pos rfl, ho] at ha
  cases h with
  | soldOut => rfl
  | repeated => rfl
  | @bought n t l hn hpos hm hgoods ho ht =>
    subst hm
    have hstock := Db.stock_paid now hn hpos l.goodsId
    have hleft := congrArg Allotment.left ha
    have hs :
        ({ OrderService.paid s.db now l.user l.goods with miaoshaOrder := t } : Db).stock (some l.goodsId) =
          (OrderService.paid s.db now l.user l.goods).stock (some l.goodsId) := rfl
    rw [l.goodsId_message] at hleft hn
    simp only [Db.allotment, hs, hstock, hn, if_true, Option.getD_some] at hleft
    omega

end Handled

/-! ## A sequence of deliveries -/

/-- One delivery after the other, each at its own time. -/
inductive Deliveries : Shop → List MiaoshaMessage → Shop → Prop
  | nil {s} : Deliveries s [] s
  | cons {now s s' s'' m ms} : Handled now s m s' → Deliveries s' ms s'' → Deliveries s (m :: ms) s''

/-- What a sequence of deliveries has done. -/
structure Delivered (s : Shop) (ms : List MiaoshaMessage) (s' : Shop) : Prop where
  grows : s.db.Extends s'.db
  /-- Each goods has been given out on its own, first come, first served. -/
  allotment : ∀ g, s'.db.allotment g = (s.db.allotment g).offerAll (usersFor g ms)
  tables : ∀ g, ∃ new, Db.holders g s'.db.miaoshaOrder.rows =
    Db.holders g s.db.miaoshaOrder.rows ++ new ∧
    Db.payers g s'.db.orderInfo.rows = Db.payers g s.db.orderInfo.rows ++ new
  stock_isSome : ∀ g, (s'.db.stock (some g)).isSome = (s.db.stock (some g)).isSome
  deliverable : ∀ m, s.db.Deliverable m → s'.db.Deliverable m

namespace Delivered

theorem nil (s : Shop) : Delivered s [] s where
  grows := .refl _
  allotment g := rfl
  tables g := ⟨[], by simp⟩
  stock_isSome g := rfl
  deliverable _ h := h

theorem append {s s' s'' : Shop} {ms ms' : List MiaoshaMessage} (h : Delivered s ms s')
    (h' : Delivered s' ms' s'') : Delivered s (ms ++ ms') s'' where
  grows := ⟨h.grows.info.trans h'.grows.info, h.grows.orders.trans h'.grows.orders⟩
  allotment g := by rw [h'.allotment, h.allotment, usersFor_append, Allotment.offerAll_append]
  tables g := by
    obtain ⟨new, ho, hi⟩ := h.tables g
    obtain ⟨new', ho', hi'⟩ := h'.tables g
    exact ⟨new ++ new', by rw [ho', ho, List.append_assoc], by rw [hi', hi, List.append_assoc]⟩
  stock_isSome g := (h'.stock_isSome g).trans (h.stock_isSome g)
  deliverable m hm := h'.deliverable m (h.deliverable m hm)

theorem one {now : Date} {s s' : Shop} {m : MiaoshaMessage} (h : Handled now s m s') :
    Delivered s [m] s' where
  grows := h.extends_
  allotment g := by
    rw [h.allotment, usersFor_cons]
    split <;> rfl
  tables := h.tables
  stock_isSome := h.stock_isSome
  deliverable _ hm := h.deliverable hm

end Delivered

namespace Deliveries

variable {s s' s'' : Shop} {ms ms' : List MiaoshaMessage}

theorem append (h : Deliveries s ms s') (h' : Deliveries s' ms' s'') :
    Deliveries s (ms ++ ms') s'' := by
  induction h with
  | nil => exact h'
  | cons hh _ ih => exact .cons hh (ih h')

theorem split (h : Deliveries s (ms ++ ms') s'') :
    ∃ s', Deliveries s ms s' ∧ Deliveries s' ms' s'' := by
  induction ms generalizing s with
  | nil => exact ⟨s, .nil, h⟩
  | cons m ms ih =>
    cases h with
    | cons hh h =>
      obtain ⟨s', h₁, h₂⟩ := ih h
      exact ⟨s', .cons hh h₁, h₂⟩

end Deliveries

theorem Deliveries.delivered {s s' : Shop} {ms : List MiaoshaMessage} (h : Deliveries s ms s') :
    Delivered s ms s' := by
  induction h with
  | nil => exact .nil _
  | cons hh _ ih => exact (Delivered.one hh).append ih

theorem MQReceiver.deliveries (clock : Nat → Date) (ms : List MiaoshaMessage) (s : Shop)
    (hv : ∀ m ∈ ms, s.db.Deliverable m) :
    ∃ s', (deliver clock ms).exec s = (.ok (), s') ∧ Deliveries s ms s' := by
  induction ms generalizing clock s with
  | nil => exact ⟨s, rfl, .nil⟩
  | cons m ms ih =>
    have hm := hv m List.mem_cons_self
    have hh := handled hm (clock 0)
    obtain ⟨s', he, hs'⟩ := ih (fun i => clock (i + 1)) _ fun m' hm' =>
      hh.deliverable (hv m' (List.mem_cons_of_mem m hm'))
    exact ⟨s', by rw [deliver_cons hm, he], .cons hh hs'⟩

/-- The first distinct users to come for a goods without an order for it, as many as there
are units. -/
def Db.buyers (db : Db) (g : Long) (ms : List MiaoshaMessage) : List (Option Long) :=
  (Allotment.newcomers (holders g db.miaoshaOrder.rows) (usersFor g ms)).take
    ((db.stock (some g)).getD 0).toNat

namespace Delivered

variable {s s' : Shop} {ms : List MiaoshaMessage}

theorem holders (h : Delivered s ms s') (g : Long) :
    Db.holders g s'.db.miaoshaOrder.rows = Db.holders g s.db.miaoshaOrder.rows ++ s.db.buyers g ms := by
  have ha := congrArg Allotment.holders (h.allotment g)
  rwa [Allotment.holders_offerAll] at ha

theorem new_orders (h : Delivered s ms s') (g : Long) :
    Db.holders g (s'.db.miaoshaOrder.rows.drop s.db.miaoshaOrder.rows.length) = s.db.buyers g ms := by
  have hh := h.holders g
  obtain ⟨new, hnew⟩ := h.grows.orders
  rw [← hnew, List.drop_left]
  rw [← hnew, Db.holders, List.filter_append, List.map_append] at hh
  exact List.append_cancel_left hh

theorem new_infos (h : Delivered s ms s') (g : Long) :
    Db.payers g (s'.db.orderInfo.rows.drop s.db.orderInfo.rows.length) = s.db.buyers g ms := by
  obtain ⟨b, ho, hi⟩ := h.tables g
  rw [h.holders g] at ho
  have hb := List.append_cancel_left ho
  obtain ⟨new, hnew⟩ := h.grows.info
  rw [← hnew, List.drop_left]
  rw [← hnew, Db.payers, List.filter_append, List.map_append, ← hb] at hi
  exact List.append_cancel_left hi

theorem stock (h : Delivered s ms s') (g : Long) :
    s'.db.stock (some g) = (s.db.stock (some g)).map (· - ((s.db.buyers g ms).length : Int)) := by
  have hleft := congrArg Allotment.left (h.allotment g)
  rw [Allotment.left_offerAll] at hleft
  have hsome := h.stock_isSome g
  cases hn : s.db.stock (some g) with
  | none =>
    rw [hn] at hsome
    simpa using hsome
  | some n =>
    rw [hn] at hsome
    obtain ⟨n', hn'⟩ := Option.isSome_iff_exists.1 hsome
    simp only [Db.allotment, hn, hn', Option.getD_some] at hleft
    rw [hn', Option.map_some, Db.buyers, hn, Option.getD_some, hleft]

/-- Who came once gains nothing by coming again. -/
theorem again (h : Delivered s ms s') {m : MiaoshaMessage} (hm : m ∈ ms) {now : Date} {s'' : Shop}
    (hh : Handled now s' m s'') : s'' = s' := by
  refine hh.eq_of_offer ?_
  rw [h.allotment]
  exact Allotment.offer_again (List.mem_map.2 ⟨m, List.mem_filter.2 ⟨hm, by simp⟩, rfl⟩)

end Delivered

/-- **Sequential delivery, exactly.** Any sequence of deliverable messages, with any
repetitions, is processed without an exception; for each goods both tables gain one row
each for the first distinct users to come without an order, in that order, as many as
there is stock, and none for anybody else; the stock falls by their number; and any
message delivered again leaves the whole shop as it is. -/
theorem sequential_delivery (s : Shop) (ms : List MiaoshaMessage) (clock : Nat → Date)
    (hv : ∀ m ∈ ms, s.db.Deliverable m) :
    ∃ s', (MQReceiver.deliver clock ms).exec s = (.ok (), s') ∧ s.db.Extends s'.db ∧
      (∀ g, Db.holders g (s'.db.miaoshaOrder.rows.drop s.db.miaoshaOrder.rows.length) =
        s.db.buyers g ms ∧
        Db.payers g (s'.db.orderInfo.rows.drop s.db.orderInfo.rows.length) = s.db.buyers g ms ∧
        (s.db.buyers g ms).Nodup ∧
        s'.db.stock (some g) = (s.db.stock (some g)).map (· - ((s.db.buyers g ms).length : Int))) ∧
      ∀ m ∈ ms, ∀ now, (MQReceiver.consumeMessage (fun _ => now) [m]).exec s' = (.ok (), s') := by
  obtain ⟨s', he, hd⟩ := MQReceiver.deliveries clock ms s hv
  have hs' := hd.delivered
  refine ⟨s', he, hs'.grows, fun g =>
    ⟨hs'.new_orders g, hs'.new_infos g, ?_, hs'.stock g⟩, ?_⟩
  · exact (Allotment.nodup_newcomers _ _).sublist (List.take_sublist _ _)
  · intro m hm now
    have hd := hs'.deliverable m (hv m hm)
    have hsame := hs'.again hm (MQReceiver.handled hd now)
    rw [MQReceiver.consumeMessage_cons hd, hsame]
    split <;> rfl

/-- Two of three users get the last two units, however often they come. -/
theorem sequential_delivery_of_two :
    ∃ s', (MQReceiver.deliver (fun _ => 0) [⟨some { id := some 7 }, 1⟩, ⟨some { id := some 8 }, 1⟩,
        ⟨some { id := some 7 }, 1⟩, ⟨some { id := some 9 }, 1⟩]).exec (Shop.one 2) = (.ok (), s') ∧
      s'.db.stock (some 1) = some 0 ∧ Db.holders 1 s'.db.miaoshaOrder.rows = [some 7, some 8] := by
  obtain ⟨s', he, -, hg, -⟩ := sequential_delivery (Shop.one 2) [⟨some { id := some 7 }, 1⟩,
    ⟨some { id := some 8 }, 1⟩, ⟨some { id := some 7 }, 1⟩, ⟨some { id := some 9 }, 1⟩] (fun _ => 0)
      (by decide)
  exact ⟨s', he, (hg 1).2.2.2, (hg 1).1⟩

end CfsShop
