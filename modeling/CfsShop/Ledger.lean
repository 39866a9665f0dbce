/-
The books of a sale: in every state any consumers can reach, what the stock
has lost, what `order_info` and `miaosha_order` have gained, and what is still
in the hands of consumers half-way through `createOrder`, add up.

The stock read in `consumeMessage` plays no part in this: by the time
`reduceStock` runs it may be arbitrarily stale. What keeps the books is that a
consumer gets to `createOrder` only through an update that took a unit, and
that the update takes none below 1. `Frame.Step.info`, `.orders` and `.stock`
say so for one statement; `Ledger.move` lifts it to the pool.
-/
import CfsShop.Receiver
import Mathlib.Algebra.Order.Ring.Int

namespace CfsShop

/-- Which rows a count is about, by their user and goods. -/
abbrev Pick := Option Long → Option Long → Bool

def forGoods (g : Long) : Pick := fun _ g' => decide (g' = some g)

def forPair (u g : Long) : Pick := fun u' g' => decide (u' = some u ∧ g' = some g)

/-- Every row counts. -/
def anyone : Pick := fun _ _ => true

/-! ## Counts -/

namespace Db

/-- Neither order table has lost a row since `db₀`. -/
structure Extends (db₀ db : Db) : Prop where
  info : db₀.orderInfo.rows <+: db.orderInfo.rows
  orders : db₀.miaoshaOrder.rows <+: db.miaoshaOrder.rows

/-- `order_info` rows created since `db₀`. -/
def infoSince (P : Pick) (db₀ db : Db) : Nat :=
  (db.orderInfo.rows.drop db₀.orderInfo.rows.length).countP fun o => P o.userId o.goodsId

/-- `miaosha_order` rows created since `db₀`. -/
def ordersSince (P : Pick) (db₀ db : Db) : Nat :=
  (db.miaoshaOrder.rows.drop db₀.miaoshaOrder.rows.length).countP fun o => P o.userId o.goodsId

theorem Extends.refl (db : Db) : db.Extends db := ⟨List.prefix_refl _, List.prefix_refl _⟩

end Db

/-- Units of stock taken by `reduceStock`. -/
def reducedFor (P : Pick) (log : List Event) : Nat :=
  log.countP fun
    | .reduced u g => P (some u) (some g)
    | _ => false

/-- `miaosha_order` rows the unique key refused. -/
def refusedFor (P : Pick) (log : List Event) : Nat :=
  log.countP fun
    | .refused u g => P (some u) (some g)
    | _ => false

namespace Frame

/-- Has taken a unit and not yet written the `order_info` row. -/
def atInsert (P : Pick) : Frame → Nat
  | insert l => (P l.user.id l.goods.id).toNat
  | _ => 0

/-- Has taken a unit and not yet written the `miaosha_order` row. -/
def inCreateOrder (P : Pick) : Frame → Nat
  | insert l | lastInsertId l _ | insertMiaoshaOrder l _ => (P l.user.id l.goods.id).toNat
  | _ => 0

end Frame

@[simp] theorem reducedFor_nil (P : Pick) : reducedFor P [] = 0 := rfl

@[simp] theorem reducedFor_append (P : Pick) (log es : List Event) :
    reducedFor P (log ++ es) = reducedFor P log + reducedFor P es := List.countP_append

@[simp] theorem reducedFor_reduced (P : Pick) (u g : Long) :
    reducedFor P [.reduced u g] = (P (some u) (some g)).toNat := by
  cases h : P (some u) (some g) <;> simp [reducedFor, h]

@[simp] theorem reducedFor_turnedAway (P : Pick) (m : MiaoshaMessage) :
    reducedFor P [.turnedAway m] = 0 := rfl

@[simp] theorem reducedFor_refused (P : Pick) (u g : Long) : reducedFor P [.refused u g] = 0 := rfl

@[simp] theorem refusedFor_nil (P : Pick) : refusedFor P [] = 0 := rfl

@[simp] theorem refusedFor_append (P : Pick) (log es : List Event) :
    refusedFor P (log ++ es) = refusedFor P log + refusedFor P es := List.countP_append

@[simp] theorem refusedFor_reduced (P : Pick) (u g : Long) : refusedFor P [.reduced u g] = 0 := rfl

@[simp] theorem refusedFor_turnedAway (P : Pick) (m : MiaoshaMessage) :
    refusedFor P [.turnedAway m] = 0 := rfl

@[simp] theorem refusedFor_refused (P : Pick) (u g : Long) :
    refusedFor P [.refused u g] = (P (some u) (some g)).toNat := by
  cases h : P (some u) (some g) <;> simp [refusedFor, h]

theorem refusedFor_le (P : Pick) (log : List Event) : refusedFor P log ≤ refusedFor anyone log := by
  apply List.countP_mono_left
  intro e _ he
  cases e <;> simp_all [anyone]

theorem forPair_self (u g : Long) : forPair u g (some u) (some g) = true := by simp [forPair]

theorem forPair_iff {u g u' g' : Long} :
    forPair u g (some u') (some g') = true ↔ (u', g') = (u, g) := by
  simp [forPair]

theorem countP_drop_concat {α : Type} {l₀ l : List α} (h : l₀ <+: l) (a : α) (P : α → Bool) :
    ((l ++ [a]).drop l₀.length).countP P = (l.drop l₀.length).countP P + (P a).toNat := by
  rw [List.drop_append_of_le_length h.length_le, List.countP_append]
  cases hp : P a <;> simp [hp]

namespace Db

theorem infoSince_insert {db₀ db : Db} (h : db₀.Extends db) (P : Pick) (o : OrderInfo) :
    infoSince P db₀ (OrderMapper.insert db o).2 =
      infoSince P db₀ db + (P o.userId o.goodsId).toNat := by
  simp only [infoSince, OrderMapper.insert, Serial.rows_insert]
  rw [countP_drop_concat h.info]

theorem ordersSince_insert {db₀ db : Db} (h : db₀.Extends db) (P : Pick) {o : MiaoshaOrder}
    {t : Table MiaoshaOrder (Long × Long) MiaoshaOrder.uidGid}
    (ht : db.miaoshaOrder.insert o = some t) :
    ordersSince P db₀ { db with miaoshaOrder := t } =
      ordersSince P db₀ db + (P o.userId o.goodsId).toNat := by
  rw [Table.insert_eq_some] at ht
  simp only [ordersSince, ht.2]
  rw [countP_drop_concat h.orders]

/-- An order is from before, or new. -/
theorem Extends.hasOrder_iff {db₀ db : Db} (h : db₀.Extends db) {u g : Long} :
    db.HasOrder u g ↔ db₀.HasOrder u g ∨ 0 < ordersSince (forPair u g) db₀ db := by
  obtain ⟨new, hnew⟩ := h.orders
  simp only [HasOrder, Table.Has, uidGid_eq_some, ordersSince, List.countP_pos_iff, forPair,
    decide_eq_true_eq]
  rw [← hnew, List.drop_left]
  simp only [List.mem_append, or_and_right, exists_or]

end Db

/-! ## One statement -/

namespace Frame.Step

variable {now : Date} {s s' : Shop} {f f' : Frame} {es : List Event}

theorem goods (h : Step now s f s' f' es) : s'.db.goods = s.db.goods := by
  cases h <;> rfl

theorem extends_ (h : Step now s f s' f' es) {db₀ : Db} (hx : db₀.Extends s.db) :
    db₀.Extends s'.db := by
  cases h with
  | inserted => exact ⟨hx.info.trans (List.prefix_append _ _), hx.orders⟩
  | ordered ht =>
    rw [Table.insert_eq_some] at ht
    refine ⟨hx.info, ?_⟩
    simp only [ht.2]
    exact hx.orders.trans (List.prefix_append _ _)
  | _ => exact ⟨hx.info, hx.orders⟩

/-- A unit taken is an `order_info` row due, and the insert settles it. -/
theorem info (h : Step now s f s' f' es) {db₀ : Db} (hx : db₀.Extends s.db) (P : Pick) :
    Db.infoSince P db₀ s'.db + f'.atInsert P =
      Db.infoSince P db₀ s.db + f.atInsert P + reducedFor P es := by
  cases h with
  | @reduced n l hn hpos => simp [Db.infoSince, atInsert, l.user_id, l.goods_id]
  | @inserted l =>
    simp only [Db.infoSince_insert hx, atInsert, reducedFor_nil]
    rfl
  | _ => simp [Db.infoSince, atInsert]

/-- A unit taken is a `miaosha_order` row due, and the insert settles it or is refused. -/
theorem orders (h : Step now s f s' f' es) {db₀ : Db} (hx : db₀.Extends s.db) (P : Pick) :
    Db.ordersSince P db₀ s'.db + f'.inCreateOrder P + refusedFor P es =
      Db.ordersSince P db₀ s.db + f.inCreateOrder P + reducedFor P es := by
  cases h with
  | @reduced n l hn hpos => simp [Db.ordersSince, inCreateOrder, l.user_id, l.goods_id]
  | @ordered l id t ht =>
    simp only [Db.ordersSince_insert hx P ht, inCreateOrder, reducedFor_nil, refusedFor_nil]
    rfl
  | @duplicate l id hd => simp [inCreateOrder, l.user_id, l.goods_id]
  | _ => simp [Db.ordersSince, inCreateOrder]

/-- One step takes at most one unit, and only from a positive stock. -/
theorem stock (h : Step now s f s' f' es) (g : Long) :
    s'.db.stock (some g) = (s.db.stock (some g)).map (· - (reducedFor (forGoods g) es : Int)) ∧
      (reducedFor (forGoods g) es = 0 ∨
        reducedFor (forGoods g) es = 1 ∧ ∃ n, s.db.stock (some g) = some n ∧ 0 < n) := by
  cases h with
  | @reduced n l hn hpos =>
    simp only [GoodsMapper.stock_reduceStock, reducedFor_reduced, forGoods]
    by_cases hg : g = l.goodsId
    · subst hg
      simp [hn, hpos]
    · have hb : ¬ l.goodsId = g := fun he => hg he.symm
      simp [hg, hb]
  | ordered ht => simp [Db.stock]
  | _ => simp

end Frame.Step

/-! ## Any number of consumers -/

/-- The books of a pool against the shop it started from. -/
structure Ledger (s₀ : Shop) (p : Sale) : Prop where
  grows : s₀.db.Extends p.store.db
  goods : p.store.db.goods = s₀.db.goods
  info : ∀ P, Db.infoSince P s₀.db p.store.db + Pool.tally (Frame.atInsert P) p.threads =
    reducedFor P p.log
  orders : ∀ P, Db.ordersSince P s₀.db p.store.db + Pool.tally (Frame.inCreateOrder P) p.threads +
    refusedFor P p.log = reducedFor P p.log
  stock : ∀ g, p.store.db.stock (some g) =
    (s₀.db.stock (some g)).map (· - (reducedFor (forGoods g) p.log : Int))
  /-- No more is taken than there was. -/
  most : ∀ g, 0 < reducedFor (forGoods g) p.log →
    ∃ n, s₀.db.stock (some g) = some n ∧ (reducedFor (forGoods g) p.log : Int) ≤ n

namespace Ledger

theorem start (s : Shop) : Ledger s (Sale.start s) where
  grows := .refl _
  goods := rfl
  info P := by simp [Sale.start, Db.infoSince]
  orders P := by simp [Sale.start, Db.ordersSince]
  stock g := by simp [Sale.start]
  most g h := by simp [Sale.start] at h

theorem run {s₀ s s' : Shop} {now : Date} {f f' : Frame} {es log : List Event}
    {pre post : List (Thread Frame)}
    (h : Ledger s₀ ⟨s, pre ++ ⟨f, true⟩ :: post, log⟩) (hs : Frame.Step now s f s' f' es) :
    Ledger s₀ ⟨s', pre ++ ⟨f', true⟩ :: post, log ++ es⟩ where
  grows := hs.extends_ h.grows
  goods := hs.goods.trans h.goods
  info P := by
    have := h.info P
    have := hs.info h.grows P
    simp only [Pool.tally_split, reducedFor_append] at *
    omega
  orders P := by
    have := h.orders P
    have := hs.orders h.grows P
    simp only [Pool.tally_split, reducedFor_append, refusedFor_append] at *
    omega
  stock g := by
    have hst := h.stock g
    simp only at hst
    simp only [(hs.stock g).1, hst, Option.map_map, reducedFor_append]
    congr 1
    funext n
    simp only [Function.comp]
    omega
  most g hpos := by
    have hst := h.stock g
    simp only [reducedFor_append] at hst hpos ⊢
    rcases (hs.stock g).2 with h0 | ⟨h1, n, hn, hn0⟩
    · rw [h0] at hpos ⊢
      exact h.most g hpos
    · rw [hst, Option.map_eq_some_iff] at hn
      obtain ⟨n₀, hn₀, rfl⟩ := hn
      exact ⟨n₀, hn₀, by omega⟩

/-- Nothing any consumer, or the environment, does upsets the books. -/
theorem move {s₀ : Shop} (p : Sale) (l : Label Frame Date) (p' : Sale) (h : Ledger s₀ p)
    (hm : Pool.Move consumers p l p') : Ledger s₀ p' := by
  cases hm with
  | idle => exact h
  | @spawn f hf =>
    -- Only a fresh listener starts, and it owes nothing.
    cases f with
    | loop msgs =>
      exact ⟨h.grows, h.goods, fun P => by simpa [Frame.atInsert] using h.info P,
        fun P => by simpa [Frame.inCreateOrder] using h.orders P, h.stock, h.most⟩
    | _ => simp [consumers] at hf
  | run hp hs =>
    obtain ⟨s, ts, log⟩ := p
    simp only at hp
    subst hp
    exact h.run (Frame.step_spec hs)
  | stop hp =>
    -- A stopped consumer keeps its frame, and with it what it owes.
    obtain ⟨s, ts, log⟩ := p
    simp only at hp
    subst hp
    exact ⟨h.grows, h.goods, fun P => by simpa using h.info P, fun P => by simpa using h.orders P,
      h.stock, h.most⟩

theorem after (s : Shop) (ls : List (Label Frame Date)) : Ledger s (Sale.after s ls) :=
  Pool.invariant consumers move ls (start s)

end Ledger

/-! ## No oversell -/

theorem stock_antitone {g : Long} {n : Int} (p : Sale) (l : Label Frame Date) (p' : Sale)
    (h : ∃ n', p.store.db.stock (some g) = some n' ∧ n' ≤ n) (hm : Pool.Move consumers p l p') :
    ∃ n', p'.store.db.stock (some g) = some n' ∧ n' ≤ n := by
  cases hm with
  | run hp hs =>
    obtain ⟨n', hn', hle⟩ := h
    exact ⟨_, by rw [((Frame.step_spec hs).stock g).1, hn', Option.map_some], by omega⟩
  | _ => exact h

/-- **No oversell.** Whatever messages are delivered, how often, in which order and to
how many consumers, and whoever dies where: the stock of a goods stays at or above 0
(or where it was, if it started below), never rises, has lost exactly what the
successful `reduceStock` updates took, and there are at most that many new
`order_info` rows. A goods without a stock (no row, or NULL) never gets one and sells nothing. -/
theorem no_oversell (s : Shop) (ls : List (Label Frame Date)) (g : Long) :
    (∀ n₀, s.db.stock (some g) = some n₀ →
      ∃ n, (Sale.after s ls).store.db.stock (some g) = some n ∧ min 0 n₀ ≤ n ∧
        (reducedFor (forGoods g) (Sale.after s ls).log : Int) = n₀ - n) ∧
    (s.db.stock (some g) = none →
      (Sale.after s ls).store.db.stock (some g) = none ∧
        reducedFor (forGoods g) (Sale.after s ls).log = 0) ∧
    Db.infoSince (forGoods g) s.db (Sale.after s ls).store.db ≤
      reducedFor (forGoods g) (Sale.after s ls).log ∧
    (∀ ls' n, (Sale.after s ls).store.db.stock (some g) = some n →
      ∃ n', (Sale.after s (ls ++ ls')).store.db.stock (some g) = some n' ∧ n' ≤ n) := by
  have hL := Ledger.after s ls
  have hmost := hL.most g
  refine ⟨?_, ?_, ?_, ?_⟩
  · intro n₀ hn₀
    refine ⟨_, by rw [hL.stock, hn₀, Option.map_some], ?_, by omega⟩
    rcases Nat.eq_zero_or_pos (reducedFor (forGoods g) (Sale.after s ls).log) with h0 | hpos
    · rw [h0]; simp
    · obtain ⟨n, hn, hle⟩ := hmost hpos
      rw [hn₀, Option.some.injEq] at hn
      omega
  · intro hnone
    refine ⟨by rw [hL.stock, hnone]; rfl, ?_⟩
    rcases Nat.eq_zero_or_pos (reducedFor (forGoods g) (Sale.after s ls).log) with h0 | hpos
    · exact h0
    · obtain ⟨n, hn, -⟩ := hmost hpos
      rw [hnone] at hn
      cases hn
  · have := hL.info (forGoods g)
    omega
  · intro ls' n hn
    rw [Sale.after, Run.run_append]
    exact Pool.invariant consumers stock_antitone ls' ⟨n, hn, le_refl n⟩

end CfsShop
