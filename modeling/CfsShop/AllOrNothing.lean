/-
A purchase is meant to be all or nothing: the stock, the `order_info` row and
the `miaosha_order` row go together, says the `@Transactional` on
`createOrder`. It is called on `this` and has no effect, and `reduceStock` is
outside it anyway, so what a failure leaves behind depends on where it falls.

`purchase_all_or_nothing` has the exact condition for one purchase, and from
it the books of every run in which no purchase is cut short.
-/
import CfsShop.Ledger

namespace CfsShop

/-- What one purchase did to the database: all of its three effects, or none. -/
def AllOrNothing (db db' : Db) (u g : Long) : Prop :=
  (db'.stock (some g) = (db.stock (some g)).map (· - 1) ∧ Db.infoSince (forPair u g) db db' = 1 ∧
      Db.ordersSince (forPair u g) db db' = 1) ∨
    (db'.stock (some g) = db.stock (some g) ∧ Db.infoSince (forPair u g) db db' = 0 ∧
      Db.ordersSince (forPair u g) db db' = 0)

instance (db db' : Db) (u g : Long) : Decidable (AllOrNothing db db' u g) :=
  inferInstanceAs (Decidable (_ ∨ _))

/-- When a failure after `k` statements of `miaosha` leaves nothing half-done: there was
nothing to sell, or the stock was not touched yet, or the `miaosha_order` insert is
behind it and the unique key had room for the row. -/
def Harmless (db : Db) (u g : Long) (k : Nat) : Prop :=
  ¬ db.InStock g ∨ k = 0 ∨ 4 ≤ k ∧ ¬ db.HasOrder u g

namespace Frame

/-- The purchase of `l` alone: no further message in the batch. -/
def purchase (l : Locals) : Frame := reduceStock { l with rest := [] }

/-- The database once the unit is taken and the `order_info` row written. -/
def paid (s : Shop) (l : Locals) (now : Date) : Db := OrderService.paid s.db now l.user l.goods

/-- The statements up to there. -/
theorem paid_eq (s : Shop) (l : Locals) (now : Date) :
    paid s l now = (OrderMapper.insert (GoodsMapper.reduceStock s.db { goodsId := some l.goodsId }).2
      (OrderService.newOrderInfo now l.user l.goods)).2 := by
  rw [paid, OrderService.paid, l.goods_id]

/-- Nothing to sell: no failure point leaves a trace in the database. -/
theorem runs_sold_out {s : Shop} {l : Locals} (h : ¬ s.db.InStock l.goodsId) (hr : l.rest = [])
    (clock : Nat → Date) (k : Nat) : (runs clock k s (reduceStock l)).1.db = s.db := by
  have hsold := Db.not_inStock_iff.1 h
  match k with
  | 0 => rfl
  | 1 => rw [runs_succ (step_reduceStock_sold_out _ hsold)]; rfl
  | k + 2 =>
    rw [runs_succ (step_reduceStock_sold_out _ hsold), runs_succ rfl, hr, runs_done fun _ => rfl]

/-- Something to sell: what the database holds after each statement. -/
theorem runs_in_stock {s : Shop} {l : Locals} (h : s.db.InStock l.goodsId) (hr : l.rest = [])
    (clock : Nat → Date) (k : Nat) :
    (k = 0 ∧ (runs clock k s (reduceStock l)).1.db = s.db) ∨
    (k = 1 ∧ (runs clock k s (reduceStock l)).1.db =
      (GoodsMapper.reduceStock s.db { goodsId := some l.goodsId }).2) ∨
    (2 ≤ k ∧ (k < 4 ∨ s.db.HasOrder l.userId l.goodsId) ∧
      (runs clock k s (reduceStock l)).1.db = paid s l (clock 1)) ∨
    (4 ≤ k ∧ ¬ s.db.HasOrder l.userId l.goodsId ∧ ∃ t id,
      (paid s l (clock 1)).miaoshaOrder.insert
        (OrderService.newMiaoshaOrder l.user l.goods (some id)) = some t ∧
      (runs clock k s (reduceStock l)).1.db = { paid s l (clock 1) with miaoshaOrder := t }) := by
  obtain ⟨n, hn, hpos⟩ := h
  match k with
  | 0 => exact .inl ⟨rfl, rfl⟩
  | 1 => exact .inr (.inl ⟨rfl, by rw [runs_succ (step_reduceStock _ hn hpos)]; rfl⟩)
  | 2 =>
    refine .inr (.inr (.inl ⟨by omega, .inl (by omega), ?_⟩))
    rw [runs_succ (step_reduceStock _ hn hpos), runs_succ rfl, paid_eq]
    rfl
  | 3 =>
    refine .inr (.inr (.inl ⟨by omega, .inl (by omega), ?_⟩))
    rw [runs_succ (step_reduceStock _ hn hpos), runs_succ rfl, runs_succ rfl, paid_eq]
    rfl
  | k + 4 =>
    have h3 : runs clock (k + 4) s (reduceStock l) =
        runs (fun i => clock (i + 3)) (k + 1) { s with db := paid s l (clock 1) }
          (insertMiaoshaOrder l s.db.orderInfo.next) := by
      rw [runs_succ (step_reduceStock _ hn hpos), runs_succ rfl, runs_succ rfl, paid_eq]
      rfl
    rw [h3]
    by_cases ho : s.db.HasOrder l.userId l.goodsId
    · refine .inr (.inr (.inl ⟨by omega, .inr ho, ?_⟩))
      have he := step_insertMiaoshaOrder_taken (s := { s with db := paid s l (clock 1) }) (clock 3)
        s.db.orderInfo.next ho
      rw [runs_succ he, runs_done fun _ => rfl]
    · obtain ⟨t, ht, he⟩ := step_insertMiaoshaOrder (s := { s with db := paid s l (clock 1) }) (clock 3)
        s.db.orderInfo.next ho
      refine .inr (.inr (.inr ⟨by omega, ho, t, s.db.orderInfo.next, ht, ?_⟩))
      rw [runs_succ he]
      match k with
      | 0 => rfl
      | k + 1 => rw [runs_succ rfl, hr, runs_done fun _ => rfl]

end Frame

namespace Db

@[simp] theorem infoSince_self (P : Pick) (db : Db) : infoSince P db db = 0 := by simp [infoSince]

@[simp] theorem ordersSince_self (P : Pick) (db : Db) : ordersSince P db db = 0 := by simp [ordersSince]

end Db

/-- What the database has once a unit is taken: one unit less, no row. -/
theorem taken_facts {s : Shop} {l : Locals} {n : Int} (hn : s.db.stock (some l.goodsId) = some n)
    (hpos : 0 < n) :
    (GoodsMapper.reduceStock s.db { goodsId := some l.goodsId }).2.stock (some l.goodsId) =
      some (n - 1) ∧
      s.db.Extends (GoodsMapper.reduceStock s.db { goodsId := some l.goodsId }).2 ∧
      (∀ P,
        Db.infoSince P s.db (GoodsMapper.reduceStock s.db { goodsId := some l.goodsId }).2 = 0) ∧
      (∀ P,
        Db.ordersSince P s.db (GoodsMapper.reduceStock s.db { goodsId := some l.goodsId }).2 = 0) := by
  refine ⟨by simp [GoodsMapper.stock_reduceStock, hn, hpos], ⟨List.prefix_refl _, List.prefix_refl _⟩,
    ?_, ?_⟩
  · intro P
    simp [Db.infoSince]
  · intro P
    simp [Db.ordersSince]

/-- And once the `order_info` row is written besides. -/
theorem paid_facts {s : Shop} {l : Locals} {n : Int} (hn : s.db.stock (some l.goodsId) = some n)
    (hpos : 0 < n) (now : Date) :
    (Frame.paid s l now).stock (some l.goodsId) = some (n - 1) ∧ s.db.Extends (Frame.paid s l now) ∧
      Db.infoSince (forPair l.userId l.goodsId) s.db (Frame.paid s l now) = 1 ∧
      Db.ordersSince (forPair l.userId l.goodsId) s.db (Frame.paid s l now) = 0 := by
  obtain ⟨hs, hx, hi, ho⟩ := taken_facts hn hpos
  rw [Frame.paid_eq]
  refine ⟨hs, ⟨hx.info.trans (List.prefix_append _ _), hx.orders⟩, ?_, ho _⟩
  rw [Db.infoSince_insert hx, hi]
  simp [OrderService.newOrderInfo, l.user_id, l.goods_id, forPair]

/-- One purchase: the exact condition. -/
theorem allOrNothing_iff (s : Shop) {l : Locals} (hr : l.rest = []) (clock : Nat → Date) (k : Nat) :
    AllOrNothing s.db (Frame.runs clock k s (.reduceStock l)).1.db l.userId l.goodsId ↔
      Harmless s.db l.userId l.goodsId k := by
  by_cases hin : s.db.InStock l.goodsId
  · have hin' := hin
    obtain ⟨n, hn, hpos⟩ := hin'
    simp only [Harmless, hin, not_true_eq_false, false_or]
    rcases Frame.runs_in_stock hin hr clock k with ⟨rfl, hdb⟩ | ⟨rfl, hdb⟩ | ⟨hk, hcut, hdb⟩ |
      ⟨hk, ho, t, id, ht, hdb⟩
    · exact iff_of_true (by rw [hdb]; exact .inr (by simp)) (.inl rfl)
    · obtain ⟨hs, -, hi, -⟩ := taken_facts hn hpos
      refine iff_of_false ?_ (by omega)
      rw [hdb]
      intro hx
      rcases hx with ⟨-, h, -⟩ | ⟨h, -, -⟩
      · rw [hi] at h; cases h
      · rw [hs, hn, Option.some.injEq] at h; omega
    · obtain ⟨-, -, hi, ho⟩ := paid_facts hn hpos (clock 1)
      refine iff_of_false ?_ ?_
      · rw [hdb]
        intro hx
        rcases hx with ⟨-, -, h⟩ | ⟨-, h, -⟩
        · rw [ho] at h; cases h
        · rw [hi] at h; cases h
      · intro h
        rcases h with hk0 | ⟨hk4, hno⟩
        · omega
        · rcases hcut with hlt | hyes
          · omega
          · exact hno hyes
    · obtain ⟨hs, hx, hi, ho'⟩ := paid_facts hn hpos (clock 1)
      refine iff_of_true ?_ (.inr ⟨hk, ho⟩)
      rw [hdb]
      refine .inl ⟨?_, ?_, ?_⟩
      · rw [hn]; exact hs
      · exact hi
      · rw [Db.ordersSince_insert hx _ ht, ho']
        simp [OrderService.newMiaoshaOrder, l.user_id, l.goods_id, forPair]
  · refine iff_of_true ?_ (.inl hin)
    rw [Frame.runs_sold_out hin hr]
    exact .inr (by simp)

/-! ## Runs -/

namespace Frame

/-- Inside `miaosha`. -/
def inMiaosha : Frame → Bool
  | reduceStock _ | insert _ | lastInsertId _ _ | insertMiaoshaOrder _ _ | putMiaoshaOrder _ _
  | setGoodsOver _ => true
  | _ => false

/-- About to have its `miaosha_order` row refused. -/
def meetsKey (db : Db) : Frame → Prop
  | insertMiaoshaOrder l _ => db.HasOrder l.userId l.goodsId
  | _ => False

instance (db : Db) : (f : Frame) → Decidable (f.meetsKey db)
  | insertMiaoshaOrder l _ => inferInstanceAs (Decidable (db.HasOrder l.userId l.goodsId))
  | loop _ | getMiaoshaOrder _ | reduceStock _ | insert _ | lastInsertId _ _ | putMiaoshaOrder _ _
  | setGoodsOver _ | threw _ => inferInstanceAs (Decidable False)

theorem atInsert_le (P : Pick) (f : Frame) : f.atInsert P ≤ f.inCreateOrder P := by
  cases f <;> simp [atInsert, inCreateOrder]

theorem inCreateOrder_le (P : Pick) (f : Frame) : f.inCreateOrder P ≤ f.inCreateOrder anyone := by
  cases f <;> simp [inCreateOrder, anyone, Bool.toNat_le]

theorem inCreateOrder_of_outside {f : Frame} (h : f.inMiaosha = false) (P : Pick) :
    f.inCreateOrder P = 0 := by
  cases f <;> simp_all [inMiaosha, inCreateOrder]

end Frame

/-- No purchase is cut short: nobody dies between its unit and its `miaosha_order` row, and
nobody comes to write that row after another has. -/
def Unbroken (p : Sale) : Label Frame Date → Prop
  | .spawn _ => True
  | .run i _ => ∀ t ∈ p.threads[i]?, ¬ t.frame.meetsKey p.store.db
  | .stop i => ∀ t ∈ p.threads[i]?, t.frame.inCreateOrder anyone = 0

instance (p : Sale) : (l : Label Frame Date) → Decidable (Unbroken p l)
  | .spawn _ => inferInstanceAs (Decidable True)
  | .run i _ => inferInstanceAs (Decidable (∀ t ∈ p.threads[i]?, ¬ t.frame.meetsKey p.store.db))
  | .stop i => inferInstanceAs (Decidable (∀ t ∈ p.threads[i]?, t.frame.inCreateOrder anyone = 0))

/-- When no purchase is running, what the stock of a goods lost is what each table gained. -/
def Settled (s₀ : Shop) (p : Sale) : Prop :=
  (∀ t ∈ p.threads, t.running = true → t.frame.inMiaosha = false) → ∀ g n₀ n,
    s₀.db.stock (some g) = some n₀ → p.store.db.stock (some g) = some n →
      n₀ - n = Db.infoSince (forGoods g) s₀.db p.store.db ∧
        n₀ - n = Db.ordersSince (forGoods g) s₀.db p.store.db

/-- The books of a run in which no purchase is cut short. -/
structure Whole (s₀ : Shop) (p : Sale) : Prop where
  ledger : Ledger s₀ p
  kept : refusedFor anyone p.log = 0
  dead : ∀ t ∈ p.threads, t.running = false → t.frame.inCreateOrder anyone = 0

theorem Frame.Step.kept {now : Date} {s s' : Shop} {f f' : Frame} {es : List Event}
    (h : Frame.Step now s f s' f' es) (hk : ¬ f.meetsKey s.db) : refusedFor anyone es = 0 := by
  cases h with
  | duplicate ho => exact absurd ho hk
  | _ => simp

theorem Whole.exec {s₀ : Shop} (p : Sale) (l : Label Frame Date) (h : Whole s₀ p) (hl : Unbroken p l) :
    Whole s₀ (p.exec consumers l) := by
  have hm := Pool.exec_move consumers p l
  have hdead := hm.threads (Q := fun t => t.running = false → t.frame.inCreateOrder anyone = 0) h.dead
    (fun f _ hd => by cases hd) (fun now f s f' es _ _ hd => by cases hd)
    (fun i t hi ht _ => by
      subst hi
      exact hl t ht)
  refine ⟨h.ledger.move p l _ hm, ?_, hdead⟩
  generalize p.exec consumers l = p' at hm ⊢
  cases hm with
  | @run pre f post x s f' es hp hs =>
    have hk := hl ⟨f, true⟩ (by simp [hp])
    rw [refusedFor_append, h.kept, (Frame.step_spec hs).kept hk]
  | _ => exact h.kept

theorem Whole.settled {s₀ : Shop} {p : Sale} (h : Whole s₀ p) : Settled s₀ p := by
  intro hidle g n₀ n hn₀ hn
  have hout : ∀ t ∈ p.threads, t.frame.inCreateOrder (forGoods g) = 0 := by
    intro t ht
    cases hr : t.running with
    | true => exact Frame.inCreateOrder_of_outside (hidle t ht hr) _
    | false =>
      have := Frame.inCreateOrder_le (forGoods g) t.frame
      have := h.dead t ht hr
      omega
  have horders : Pool.tally (Frame.inCreateOrder (forGoods g)) p.threads = 0 :=
    Pool.tally_eq_zero.2 hout
  have hinfo : Pool.tally (Frame.atInsert (forGoods g)) p.threads = 0 :=
    Pool.tally_eq_zero.2 fun t ht => by
    have := Frame.atInsert_le (forGoods g) t.frame
    have := hout t ht
    omega
  have hkept : refusedFor (forGoods g) p.log = 0 := by
    have := refusedFor_le (forGoods g) p.log
    have := h.kept
    omega
  have hbooks := h.ledger.info (forGoods g)
  have hbooks' := h.ledger.orders (forGoods g)
  have hstock := h.ledger.stock g
  rw [hn₀, hn, Option.map_some, Option.some.injEq] at hstock
  omega

/-- **All or nothing, exactly when.** A purchase that fails after `k` of its statements leaves
all of its three effects or none if and only if there was nothing to sell, or the failure
came before the stock update, or after a `miaosha_order` insert that found its key free.
And in every run in which no purchase is cut short there, whenever no purchase is
running, the stock of each goods has lost as many units as `order_info` and
`miaosha_order` have gained rows for it. -/
theorem purchase_all_or_nothing (s : Shop) :
    (∀ (l : Locals) (clock : Nat → Date) (k : Nat),
      AllOrNothing s.db (Frame.runs clock k s (Frame.purchase l)).1.db l.userId l.goodsId ↔
        Harmless s.db l.userId l.goodsId k) ∧
    ∀ ls : List (Label Frame Date), Run.Along (Pool.exec consumers) Unbroken (Sale.start s) ls →
      Run.Always (Pool.exec consumers) (Settled s) (Sale.start s) ls := by
  refine ⟨fun l clock k => allOrNothing_iff s (l := { l with rest := [] }) rfl clock k, ?_⟩
  intro ls hls
  have hstart : Whole s (Sale.start s) := ⟨.start s, rfl, by simp [Sale.start]⟩
  exact Run.Always.imp (fun p h => h.settled) (Run.Along.always Whole.exec hstart hls)

/-- User 7 buying goods 1. -/
def Locals.seven : Locals where
  user := { id := some 7 }
  userId := 7
  goods := .join { goodsId := some 1, stockCount := some 1, miaoshaPrice := some 1 }
    (some { id := 1, goodsName := some "iphoneX" })
  goodsId := 1
  rest := []
  user_id := rfl
  goods_id := rfl

/-- The consumer dies right after the stock update: a unit is gone and no table knows of it;
once it is gone nothing is running, and the books of the shop are off for good. -/
theorem dies_after_the_update :
    ¬ AllOrNothing (Shop.one 1).db
      (Frame.runs (fun _ => 0) 1 (Shop.one 1) (Frame.purchase .seven)).1.db 7 1 ∧
      ¬ Settled (Shop.one 1) (Sale.after (Shop.one 1)
        [.spawn (.loop [⟨some { id := some 7 }, 1⟩]), .run 0 0, .run 0 0, .run 0 0, .stop 0]) := by
  refine ⟨by decide, ?_⟩
  intro h
  have := (h (by decide) 1 1 0 rfl rfl).1
  exact absurd this (by decide)

/-- A consumer that finishes its purchase before another dies outside of one. -/
theorem settled_after_a_sale :
    Run.Always (Pool.exec consumers) (Settled (Shop.one 1)) (Sale.start (Shop.one 1))
      ([.spawn (.loop [⟨some { id := some 7 }, 1⟩]), .spawn (.loop [⟨some { id := some 8 }, 1⟩])] ++
        List.replicate 7 (.run 0 0) ++ [.stop 1]) :=
  (purchase_all_or_nothing (Shop.one 1)).2 _ (by decide)

end CfsShop
