/-
A batch against its messages one by one.

The loop of `consumeMessage` leaves a round in two ways: a repeated order is
skipped (`continue`), a goods that is sold out ends the whole batch (`break`).
The second takes the messages after it along, whatever goods they are for, and
the batch is not looked at again. `batching_iff` has the batches for which
this makes no difference.
-/
import CfsShop.Delivery

namespace CfsShop

/-! ## Up to generated ids and dates -/

/-- The bean without what the database and the clock put into it. -/
def OrderInfo.ungenerated (o : OrderInfo) : OrderInfo := { o with id := none, createDate := none }

def MiaoshaOrder.ungenerated (o : MiaoshaOrder) : MiaoshaOrder := { o with orderId := none }

/-- The same stock, orders and order map, up to generated ids and dates. -/
structure Same (s s' : Shop) : Prop where
  goods : s.db.goods = s'.db.goods
  miaoshaGoods : s.db.miaoshaGoods = s'.db.miaoshaGoods
  orderInfo : s.db.orderInfo.rows.map (·.ungenerated) = s'.db.orderInfo.rows.map (·.ungenerated)
  miaoshaOrder : s.db.miaoshaOrder.rows.map (·.ungenerated) =
    s'.db.miaoshaOrder.rows.map (·.ungenerated)
  redis : ∀ key, (s.redis.miaoshaOrder key).map (·.ungenerated) =
    (s'.redis.miaoshaOrder key).map (·.ungenerated)

namespace Same

variable {s s' s'' : Shop}

theorem refl (s : Shop) : Same s s := ⟨rfl, rfl, rfl, rfl, fun _ => rfl⟩

theorem symm (h : Same s s') : Same s' s :=
  ⟨h.goods.symm, h.miaoshaGoods.symm, h.orderInfo.symm, h.miaoshaOrder.symm, fun k => (h.redis k).symm⟩

theorem trans (h : Same s s') (h' : Same s' s'') : Same s s'' :=
  ⟨h.goods.trans h'.goods, h.miaoshaGoods.trans h'.miaoshaGoods, h.orderInfo.trans h'.orderInfo,
    h.miaoshaOrder.trans h'.miaoshaOrder, fun k => (h.redis k).trans (h'.redis k)⟩

theorem stock (h : Same s s') (g : Option Long) : s.db.stock g = s'.db.stock g := by
  simp only [Db.stock, h.miaoshaGoods]

theorem hasOrder (h : Same s s') {u g : Long} : s.db.HasOrder u g ↔ s'.db.HasOrder u g := by
  have herase : ∀ rows : List MiaoshaOrder, Db.holders g rows =
    Db.holders g (rows.map (·.ungenerated)) := by
    intro rows
    simp only [Db.holders, List.filter_map, List.map_map]
    rfl
  rw [Db.hasOrder_iff_mem, Db.hasOrder_iff_mem, herase, h.miaoshaOrder, ← herase]

theorem lookup (h : Same s s') (g : Long) :
    GoodsMapper.getGoodsVoByGoodsId s.db g = GoodsMapper.getGoodsVoByGoodsId s'.db g := by
  rw [GoodsMapper.getGoodsVoByGoodsId_eq, GoodsMapper.getGoodsVoByGoodsId_eq, h.goods, h.miaoshaGoods]

/-- The same shop and the same message: the same outcome. -/
theorem handled {now now' : Date} {m : MiaoshaMessage} {t t' : Shop} (h : Same s s')
    (ht : Handled now s m t) (ht' : Handled now' s' m t') : Same t t' := by
  cases ht with
  | soldOut hn hle =>
    cases ht' with
    | bought hn' hpos =>
      rw [h.stock, hn', Option.some.injEq] at hn
      omega
    | _ => exact h
  | repeated hn hpos hu ho =>
    cases ht' with
    | @bought _ _ l _ _ hm _ ho' =>
      subst hm
      rw [l.userId_message, Option.some.injEq] at hu
      subst hu
      exact absurd (h.hasOrder.1 ho) ho'
    | _ => exact h
  | @bought n r l hn hpos hm hgoods ho hr =>
    subst hm
    cases ht' with
    | soldOut hn' hle =>
      rw [h.stock, hn', Option.some.injEq] at hn
      omega
    | repeated hn' hpos' hu ho' =>
      rw [l.userId_message, Option.some.injEq] at hu
      subst hu
      exact absurd (h.hasOrder.2 ho') ho
    | @bought n' r' l' hn' hpos' hm' hgoods' ho' hr' =>
      have huser : l'.user = l.user := by
        have := congrArg MiaoshaMessage.user hm'
        exact (Option.some.inj this).symm
      have hvo : l'.goods = l.goods := by
        rw [← h.lookup, hgoods] at hgoods'
        simpa using hgoods'.symm
      rw [huser, hvo] at hr' ⊢
      refine ⟨h.goods, ?_, ?_, ?_, ?_⟩
      · simp only [OrderService.paid, OrderMapper.insert, GoodsMapper.reduceStock, h.miaoshaGoods]
      · simp only [OrderService.paid, OrderMapper.insert, GoodsMapper.reduceStock,
          Serial.rows_insert, List.map_append, h.orderInfo]
        rfl
      · simp only [(Table.insert_eq_some.1 hr).2, (Table.insert_eq_some.1 hr').2, List.map_append,
          h.miaoshaOrder]
        rfl
      · intro key
        simp only [Redis.putMiaoshaOrder, Function.update_apply]
        split
        · rfl
        · exact h.redis key

/-- Orders are never lost, so a shop with more of them is another one. -/
theorem not_of_grown (hlt : s.db.orderInfo.rows.length < s'.db.orderInfo.rows.length) :
    ¬ Same s s' := by
  intro h
  have := congrArg List.length h.orderInfo
  simp only [List.length_map] at this
  omega

theorem deliveries {ms : List MiaoshaMessage} {t t' : Shop} (h : Same s s') (ht : Deliveries s ms t)
    (ht' : Deliveries s' ms t') : Same t t' := by
  induction ht generalizing s' with
  | nil =>
    cases ht'
    exact h
  | cons hh _ ih =>
    cases ht' with
    | cons hh' hs' => exact ih (h.handled hh hh') hs'

end Same

/-! ## Where a batch ends -/

namespace Db

/-- The goods of `m` is sold out once the messages `p` have had their turn: as many distinct
users without an order came for it as there were units. -/
def SoldOutAfter (db : Db) (p : List MiaoshaMessage) (m : MiaoshaMessage) : Prop :=
  (db.stock (some m.goodsId)).getD 0 ≤
    ((Allotment.newcomers (holders m.goodsId db.miaoshaOrder.rows) (usersFor m.goodsId p)).length : Int)

instance (db : Db) (p : List MiaoshaMessage) (m : MiaoshaMessage) : Decidable (db.SoldOutAfter p m) :=
  inferInstanceAs (Decidable (_ ≤ _))

/-- The user of `m` has an order for its goods once the messages `p` have had their turn. -/
def ServedAfter (db : Db) (p : List MiaoshaMessage) (m : MiaoshaMessage) : Prop :=
  m.userId ∈ holders m.goodsId db.miaoshaOrder.rows ++ db.buyers m.goodsId p

instance (db : Db) (p : List MiaoshaMessage) (m : MiaoshaMessage) : Decidable (db.ServedAfter p m) :=
  inferInstanceAs (Decidable (_ ∈ _))

/-- The messages of a batch that get their turn, when `p` came before: those up to the first
for a goods that is sold out by then. -/
def reached (db : Db) : List MiaoshaMessage → List MiaoshaMessage → List MiaoshaMessage
  | _, [] => []
  | p, m :: ms => if db.SoldOutAfter p m then [] else m :: reached db (p ++ [m]) ms

/-- A batch that comes after `p` and changes nothing: up to its first message for a goods that is
sold out, every message is from a user who has an order. -/
def Quiet (db : Db) (p ms : List MiaoshaMessage) : Prop :=
  ∀ m ∈ ms.takeWhile fun m => ¬ db.SoldOutAfter p m, db.ServedAfter p m

theorem soldOutAfter_iff {db : Db} {p : List MiaoshaMessage} {m : MiaoshaMessage} :
    db.SoldOutAfter p m ↔ ((db.allotment m.goodsId).offerAll (usersFor m.goodsId p)).left ≤ 0 := by
  rw [Allotment.left_offerAll_nonpos]
  rfl

theorem servedAfter_iff {db : Db} {p : List MiaoshaMessage} {m : MiaoshaMessage} :
    db.ServedAfter p m ↔ m.userId ∈
      ((db.allotment m.goodsId).offerAll (usersFor m.goodsId p)).holders := by
  rw [Allotment.holders_offerAll]
  rfl

theorem reached_append (db : Db) (p xs ys : List MiaoshaMessage) :
    db.reached p (xs ++ ys) =
      if db.reached p xs = xs then xs ++ db.reached (p ++ xs) ys else db.reached p xs := by
  induction xs generalizing p with
  | nil => simp [reached]
  | cons m xs ih =>
    by_cases hs : db.SoldOutAfter p m
    · simp [reached, hs]
    · have hne : ¬ db.SoldOutAfter p m := hs
      simp only [List.cons_append, reached, if_neg hne, ih, List.cons.injEq, true_and,
        List.append_assoc, List.nil_append]
      split <;> rfl

theorem reached_prefix (db : Db) (p ms : List MiaoshaMessage) : db.reached p ms <+: ms := by
  induction ms generalizing p with
  | nil => exact List.prefix_refl _
  | cons m ms ih =>
    rw [reached]
    split
    · exact List.nil_prefix
    · exact List.cons_prefix_cons.2 ⟨rfl, ih _⟩

end Db

namespace Delivered

variable {s s' : Shop} {p q : List MiaoshaMessage} {m : MiaoshaMessage}

theorem soldOutAfter (h : Delivered s p s') :
    s'.db.SoldOutAfter q m ↔ s.db.SoldOutAfter (p ++ q) m := by
  rw [Db.soldOutAfter_iff, Db.soldOutAfter_iff, h.allotment, usersFor_append, Allotment.offerAll_append]

theorem servedAfter (h : Delivered s p s') : s'.db.ServedAfter q m ↔ s.db.ServedAfter (p ++ q) m := by
  rw [Db.servedAfter_iff, Db.servedAfter_iff, h.allotment, usersFor_append, Allotment.offerAll_append]

theorem quiet (h : Delivered s p s') {ms : List MiaoshaMessage} :
    s'.db.Quiet [] ms ↔ s.db.Quiet p ms := by
  simp only [Db.Quiet, h.soldOutAfter, h.servedAfter, List.append_nil]

end Delivered

/-! ## What a batch does -/

namespace Handled

variable {now : Date} {s s' : Shop} {m : MiaoshaMessage}

theorem eq_of_passed_over (h : Handled now s m s')
    (hp : s.db.SoldOutAfter [] m ∨ s.db.ServedAfter [] m) : s' = s := by
  rw [Db.soldOutAfter_iff, Db.servedAfter_iff] at hp
  refine h.eq_of_offer ?_
  rcases hp with hle | hmem
  · exact if_pos hle
  · unfold Allotment.offer
    split
    · rfl
    · exact if_pos hmem

theorem grown (h : Handled now s m s') (hs : ¬ s.db.SoldOutAfter [] m) (hm : ¬ s.db.ServedAfter [] m) :
    s.db.orderInfo.rows.length < s'.db.orderInfo.rows.length := by
  rw [Db.soldOutAfter_iff] at hs
  rw [Db.servedAfter_iff] at hm
  cases h with
  | soldOut hn hle => exact absurd (by simpa [Db.allotment, hn, usersFor] using hle) hs
  | repeated hn hpos hu ho =>
    rw [Db.hasOrder_iff_mem, ← hu] at ho
    exact absurd ho hm
  | bought => simp [OrderService.paid, OrderMapper.insert]

end Handled

/-- One by one: nothing happens exactly when each message is too late or a repetition. -/
theorem Deliveries.same_iff {s s' : Shop} {ms : List MiaoshaMessage} (h : Deliveries s ms s') :
    Same s s' ↔ ∀ m ∈ ms, s.db.SoldOutAfter [] m ∨ s.db.ServedAfter [] m := by
  induction h with
  | nil => exact iff_of_true (.refl _) (by simp)
  | @cons now s s' s'' m ms hh hs ih =>
    by_cases hp : s.db.SoldOutAfter [] m ∨ s.db.ServedAfter [] m
    · have he := hh.eq_of_passed_over hp
      subst he
      rw [ih, List.forall_mem_cons]
      exact ⟨fun h => ⟨hp, h⟩, fun h => h.2⟩
    · have hgrown := hh.grown (fun h => hp (.inl h)) (fun h => hp (.inr h))
      have hlen := hs.delivered.grows.info.length_le
      exact iff_of_false (Same.not_of_grown (by omega)) fun h => hp (h m List.mem_cons_self)

namespace MQReceiver

theorem consumeMessage_cons_reached {s : Shop} {m : MiaoshaMessage} (hv : s.db.Deliverable m)
    (clock : Nat → Date) (msgs : List MiaoshaMessage) :
    (consumeMessage clock (m :: msgs)).exec s =
      if s.db.SoldOutAfter [] m then (.ok (), s)
      else (consumeMessage (fun i => clock (i + 1)) msgs).exec (handle (clock 0) m s) := by
  rw [consumeMessage_cons hv]
  simp only [Db.soldOutAfter_iff]
  rfl

/-- A batch is its messages up to the first that comes too late, one by one. -/
theorem consumeMessage_reached (clock : Nat → Date) (ms : List MiaoshaMessage) {s₀ s : Shop}
    {p : List MiaoshaMessage} (hs : Delivered s₀ p s) (hv : ∀ m ∈ ms, s.db.Deliverable m) :
    ∃ s', (consumeMessage clock ms).exec s = (.ok (), s') ∧ Deliveries s (s₀.db.reached p ms) s' := by
  induction ms generalizing clock s p with
  | nil => exact ⟨s, rfl, .nil⟩
  | cons m ms ih =>
    have hm := hv m List.mem_cons_self
    have hsold : s.db.SoldOutAfter [] m ↔ s₀.db.SoldOutAfter p m := by
      rw [hs.soldOutAfter, List.append_nil]
    rw [consumeMessage_cons_reached hm, Db.reached]
    by_cases hle : s.db.SoldOutAfter [] m
    · rw [if_pos hle, if_pos (hsold.1 hle)]
      exact ⟨s, rfl, .nil⟩
    · rw [if_neg hle, if_neg fun h => hle (hsold.2 h)]
      have hh := handled hm (clock 0)
      obtain ⟨s', he, hs'⟩ := ih (fun i => clock (i + 1)) (hs.append (.one hh)) fun m' hm' =>
        hh.deliverable (hv m' (List.mem_cons_of_mem m hm'))
      exact ⟨s', he, .cons hh hs'⟩

/-- A batch changes nothing exactly when it is quiet. -/
theorem consumeMessage_same_iff (clock : Nat → Date) (ms : List MiaoshaMessage) (s : Shop)
    (hv : ∀ m ∈ ms, s.db.Deliverable m) :
    Same s ((consumeMessage clock ms).exec s).2 ↔ s.db.Quiet [] ms := by
  induction ms generalizing clock with
  | nil => exact iff_of_true (.refl s) (by simp [Db.Quiet])
  | cons m ms ih =>
    have hm := hv m List.mem_cons_self
    have hms : ∀ m' ∈ ms, s.db.Deliverable m' := fun m' hm' => hv m' (List.mem_cons_of_mem m hm')
    have hh := handled hm (clock 0)
    rw [consumeMessage_cons_reached hm, Db.Quiet]
    by_cases hle : s.db.SoldOutAfter [] m
    · rw [if_pos hle]
      exact iff_of_true (.refl s) (by simp [hle])
    rw [if_neg hle, List.takeWhile_cons_of_pos (by simpa using hle), List.forall_mem_cons]
    by_cases hserved : s.db.ServedAfter [] m
    · rw [hh.eq_of_passed_over (.inr hserved), ih (fun i => clock (i + 1)) hms, Db.Quiet]
      exact ⟨fun h => ⟨hserved, h⟩, fun h => h.2⟩
    · have hgrown := hh.grown hle hserved
      obtain ⟨s', he, hs'⟩ := consumeMessage_reached (fun i => clock (i + 1)) ms
        (.nil (handle (clock 0) m s))
        fun m' hm' => hh.deliverable (hms m' hm')
      have hlen := hs'.delivered.grows.info.length_le
      rw [he]
      exact iff_of_false (Same.not_of_grown (hgrown.trans_le hlen)) fun h => hserved h.1

end MQReceiver

/-! ## Batching -/

/-- The shop after a batch. -/
def MQReceiver.batch (clock : Nat → Date) (ms : List MiaoshaMessage) (s : Shop) : Shop :=
  ((consumeMessage clock ms).exec s).2

/-- **Batching, exactly when it does not matter.** Two lists of messages in one batch do what
they do in two if and only if every message of the first gets its turn, or the second
changes nothing after those that do. And a batch does what its messages do one by one if
and only if all the messages that get no turn are too late or repetitions themselves. -/
theorem batching_iff (s : Shop) :
    (∀ (xs ys : List MiaoshaMessage) (clock clock₁ clock₂ : Nat → Date),
      (∀ m ∈ xs ++ ys, s.db.Deliverable m) →
        (Same (MQReceiver.batch clock (xs ++ ys) s)
          (MQReceiver.batch clock₂ ys (MQReceiver.batch clock₁ xs s)) ↔
          s.db.reached [] xs = xs ∨ s.db.Quiet (s.db.reached [] xs) ys)) ∧
    ∀ (ms : List MiaoshaMessage) (clock clock₁ : Nat → Date), (∀ m ∈ ms, s.db.Deliverable m) →
      (Same (MQReceiver.batch clock ms s) ((MQReceiver.deliver clock₁ ms).exec s).2 ↔
        ∀ m ∈ ms.drop (s.db.reached [] ms).length,
          s.db.SoldOutAfter (s.db.reached [] ms) m ∨ s.db.ServedAfter (s.db.reached [] ms) m) := by
  constructor
  · intro xs ys clock clock₁ clock₂ hv
    have hxs : ∀ m ∈ xs, s.db.Deliverable m := fun m hm => hv m (List.mem_append_left ys hm)
    have hys : ∀ m ∈ ys, s.db.Deliverable m := fun m hm => hv m (List.mem_append_right xs hm)
    obtain ⟨s₁, he₁, hs₁⟩ := MQReceiver.consumeMessage_reached clock (xs ++ ys) (.nil s) hv
    obtain ⟨s₂, he₂, hs₂⟩ := MQReceiver.consumeMessage_reached clock₁ xs (.nil s) hxs
    have hys₂ : ∀ m ∈ ys, s₂.db.Deliverable m := fun m hm => hs₂.delivered.deliverable m (hys m hm)
    obtain ⟨s₃, he₃, hs₃⟩ := MQReceiver.consumeMessage_reached clock₂ ys hs₂.delivered hys₂
    have hb : MQReceiver.batch clock₁ xs s = s₂ := by rw [MQReceiver.batch, he₂]
    have hb₁ : MQReceiver.batch clock (xs ++ ys) s = s₁ := by rw [MQReceiver.batch, he₁]
    rw [hb, hb₁]
    rw [Db.reached_append, List.nil_append] at hs₁
    by_cases hall : s.db.reached [] xs = xs
    · -- No `break` in `xs`: both ways handle the same messages.
      rw [if_pos hall] at hs₁
      rw [hall] at hs₂ hs₃
      rw [MQReceiver.batch, he₃]
      exact iff_of_true ((Same.refl s).deliveries hs₁ (hs₂.append hs₃)) (.inl hall)
    · -- The one batch stops in `xs`; the other goes on with `ys`.
      rw [if_neg hall] at hs₁
      have hsame : Same s₁ s₂ := (Same.refl s).deliveries hs₁ hs₂
      have hquiet := MQReceiver.consumeMessage_same_iff clock₂ ys s₂ hys₂
      rw [hs₂.delivered.quiet] at hquiet
      rw [MQReceiver.batch]
      constructor
      · intro h
        exact .inr (hquiet.1 (hsame.symm.trans h))
      · intro hx
        rcases hx with h | h
        · exact absurd h hall
        · exact hsame.trans (hquiet.2 h)
  · intro ms clock clock₁ hv
    obtain ⟨s₁, he₁, hs₁⟩ := MQReceiver.consumeMessage_reached clock ms (.nil s) hv
    obtain ⟨s₃, he₃, hs₃⟩ := MQReceiver.deliveries clock₁ ms s hv
    rw [MQReceiver.batch, he₁, he₃]
    obtain ⟨q, hq⟩ := s.db.reached_prefix [] ms
    have hdrop : ms.drop (s.db.reached [] ms).length = q := by
      have hd := congrArg (List.drop (s.db.reached [] ms).length) hq
      rw [List.drop_left] at hd
      exact hd.symm
    rw [hdrop]
    rw [← hq] at hs₃
    obtain ⟨s₂, hs₂, hs₃⟩ := hs₃.split
    have hsame : Same s₁ s₂ := (Same.refl s).deliveries hs₁ hs₂
    have hiff := hs₃.same_iff
    simp only [hs₂.delivered.soldOutAfter, hs₂.delivered.servedAfter, List.append_nil] at hiff
    rw [← hiff]
    exact ⟨fun h => hsame.symm.trans h, fun h => hsame.trans h⟩

/-- Goods 1 is sold out, goods 2 is not. In a batch, user 7 coming for the first makes user 8
go without the second; in two batches, or one by one, user 8 gets it. -/
theorem break_drops_the_rest :
    (∀ m ∈ [⟨some { id := some 7 }, 1⟩] ++ [⟨some { id := some 8 }, 2⟩],
      (Shop.two 0 1).db.Deliverable m) ∧
      (MQReceiver.batch (fun _ => 0) ([⟨some { id := some 7 }, 1⟩] ++ [⟨some { id := some 8 }, 2⟩])
        (Shop.two 0 1)).db.stock (some 2) = some 1 ∧
      (MQReceiver.batch (fun _ => 0) [⟨some { id := some 8 }, 2⟩]
        (MQReceiver.batch (fun _ => 0) [⟨some { id := some 7 }, 1⟩] (Shop.two 0 1))).db.stock
          (some 2) = some 0 ∧
      ¬ Same (MQReceiver.batch (fun _ => 0)
        ([⟨some { id := some 7 }, 1⟩] ++ [⟨some { id := some 8 }, 2⟩]) (Shop.two 0 1))
        (MQReceiver.batch (fun _ => 0) [⟨some { id := some 8 }, 2⟩]
          (MQReceiver.batch (fun _ => 0) [⟨some { id := some 7 }, 1⟩] (Shop.two 0 1))) ∧
      ¬ Same (MQReceiver.batch (fun _ => 0) [⟨some { id := some 7 }, 1⟩, ⟨some { id := some 8 }, 2⟩]
        (Shop.two 0 1))
        ((MQReceiver.deliver (fun _ => 0) [⟨some { id := some 7 }, 1⟩, ⟨some { id := some 8 }, 2⟩]).exec
          (Shop.two 0 1)).2 := by
  refine ⟨by decide, by decide, by decide, ?_, ?_⟩
  · intro h
    exact absurd (h.stock (some 2)) (by decide)
  · intro h
    exact absurd (h.stock (some 2)) (by decide)

/-- With stock for everybody, and a repetition, two batches do what one does. -/
theorem batching_in_stock :
    Same (MQReceiver.batch (fun _ => 0) ([⟨some { id := some 7 }, 1⟩, ⟨some { id := some 7 }, 1⟩] ++
        [⟨some { id := some 8 }, 2⟩]) (Shop.two 2 1))
      (MQReceiver.batch (fun _ => 2) [⟨some { id := some 8 }, 2⟩]
        (MQReceiver.batch (fun _ => 1) [⟨some { id := some 7 }, 1⟩, ⟨some { id := some 7 }, 1⟩]
          (Shop.two 2 1))) :=
  ((batching_iff (Shop.two 2 1)).1 _ _ _ _ _ (by decide)).2 (.inl (by decide))

end CfsShop
