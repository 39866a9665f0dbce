/-
An order leaves three records behind: a row of `order_info`, a row of
`miaosha_order` that names it, and an entry of the Redis map, under a key made
of user and goods, that repeats the second.

No transaction holds them together, and a consumer may die between any two of
them; but each is written only after the one it refers to. So whatever
happens, the chain is never dangling (`order_chain`), and the refusal of a
second purchase, which looks at the Redis map only, is never wrong.
-/
import CfsShop.System
import CfsShop.Lib.Decimal

namespace CfsShop

/-- The key tells the pair. -/
theorem orderKey_injective {u g u' g' : Long}
    (h : orderKey (some u) (some g) = orderKey (some u') (some g')) : u = u' ∧ g = g' :=
  Decimal.joined_injective h

/-- The order has its `order_info` row, for the same user and goods. -/
def Db.InfoOf (db : Db) (o : MiaoshaOrder) : Prop :=
  ∃ i ∈ db.orderInfo.rows, i.id = o.orderId ∧ i.userId = o.userId ∧ i.goodsId = o.goodsId

/-- The records in the two stores hang together. -/
structure Shop.Chained (db₀ : Db) (s : Shop) : Prop where
  grows : db₀.Extends s.db
  orders : ∀ o ∈ db₀.newOrders s.db, s.db.InfoOf o
  entries : ∀ k o, s.redis.miaoshaOrder k = some o → o ∈ db₀.newOrders s.db ∧
    ∃ u g, k = orderKey (some u) (some g) ∧ o.userId = some u ∧ o.goodsId = some g

namespace Frame

/-- What a consumer is about to refer to is there. -/
def Chained (db₀ : Db) (s : Shop) : Frame → Prop
  | lastInsertId l id | insertMiaoshaOrder l id =>
    s.db.InfoOf (OrderService.newMiaoshaOrder l.user l.goods (some id))
  | putMiaoshaOrder l o =>
    o ∈ db₀.newOrders s.db ∧ o.userId = some l.userId ∧ o.goodsId = some l.goodsId
  | _ => True

/-- Records do not go away. -/
theorem Chained.later {db₀ : Db} {s s' : Shop} {f : Frame} (h : f.Chained db₀ s)
    (hinfo : ∀ i ∈ s.db.orderInfo.rows, i ∈ s'.db.orderInfo.rows)
    (hnew : ∀ o ∈ db₀.newOrders s.db, o ∈ db₀.newOrders s'.db) : f.Chained db₀ s' := by
  cases f with
  | lastInsertId l id | insertMiaoshaOrder l id =>
    obtain ⟨i, hi, he⟩ := h
    exact ⟨i, hinfo i hi, he⟩
  | putMiaoshaOrder l o => exact ⟨hnew o h.1, h.2⟩
  | _ => trivial

namespace Step

variable {now : Date} {s s' : Shop} {f f' : Frame} {es : List Event} {db₀ : Db}

theorem orderInfo_mono (h : Step now s f s' f' es) :
    ∀ i ∈ s.db.orderInfo.rows, i ∈ s'.db.orderInfo.rows := by
  intro i hi
  cases h with
  | inserted => exact List.mem_append_left _ hi
  | _ => exact hi

theorem newOrders_mono (h : Step now s f s' f' es) (hx : db₀.Extends s.db) :
    ∀ o ∈ db₀.newOrders s.db, o ∈ db₀.newOrders s'.db := by
  intro o ho
  cases h with
  | ordered ht =>
    rw [Db.newOrders_insert hx ht]
    exact List.mem_append_left _ ho
  | _ => exact ho

/-- One statement keeps the records together. -/
theorem chained (h : Step now s f s' f' es) (hs : s.Chained db₀) (hf : f.Chained db₀ s) :
    s'.Chained db₀ := by
  have hgrows := h.extends_ hs.grows
  cases h with
  | inserted =>
    refine ⟨hgrows, ?_, hs.entries⟩
    intro o ho
    obtain ⟨i, hi, he⟩ := hs.orders o ho
    exact ⟨i, List.mem_append_left _ hi, he⟩
  | @ordered l id t ht =>
    refine ⟨hgrows, ?_, ?_⟩
    · rw [Db.newOrders_insert hs.grows ht, Run.forall_mem_snoc]
      exact ⟨hs.orders, hf⟩
    · rw [Db.newOrders_insert hs.grows ht]
      intro k o ho
      obtain ⟨hmem, hk⟩ := hs.entries k o ho
      exact ⟨List.mem_append_left _ hmem, hk⟩
  | @put l o =>
    refine ⟨hgrows, hs.orders, ?_⟩
    intro k o' ho
    simp only [Redis.putMiaoshaOrder, Function.update_apply] at ho
    split at ho
    · next hk =>
      cases ho
      refine ⟨hf.1, l.userId, l.goodsId, ?_, hf.2⟩
      rw [hk, l.user_id, l.goods_id]
    · exact hs.entries k o' ho
  | reduced | marked => exact ⟨hgrows, hs.orders, hs.entries⟩
  | _ => exact hs

/-- And leaves the consumer with records to refer to. -/
theorem chained_frame (h : Step now s f s' f' es) (hs : s.Chained db₀) (hf : f.Chained db₀ s) :
    f'.Chained db₀ s' := by
  cases h with
  | @inserted l => exact ⟨_, List.mem_append_right _ (List.mem_singleton_self _), rfl, rfl, rfl⟩
  | keyed => exact hf
  | @ordered l id t ht =>
    refine ⟨?_, l.user_id, l.goods_id⟩
    rw [Db.newOrders_insert hs.grows ht]
    exact List.mem_append_right _ (List.mem_singleton_self _)
  | _ => trivial

end Step

end Frame

/-! ## The whole -/

/-- The Redis map speaks for the table. -/
theorem Shop.Chained.hasOrder {db₀ : Db} {s : Shop} (h : s.Chained db₀) {u g : Long} {o : MiaoshaOrder}
    (ho : s.redis.miaoshaOrder (orderKey (some u) (some g)) = some o) : s.db.HasOrder u g := by
  obtain ⟨hmem, u', g', hkey, hu, hg⟩ := h.entries _ o ho
  obtain ⟨rfl, rfl⟩ := orderKey_injective hkey
  exact ⟨o, List.mem_of_mem_drop hmem, uidGid_eq_some.2 ⟨hu, hg⟩⟩

/-- A request is refused for an order only on sight of one in the Redis map. -/
theorem Request.Step.repeats {marked up : Bool} {w w' : Web} {f f' : Request} {es : List Answer}
    (h : Step marked up w f w' f' es) {a : Answer} (ha : a ∈ es)
    (hr : a.result = .ok (.error CodeMsg.REPEATE_MIAOSHA)) :
    ∃ u, a.userId = some u ∧ w.Ordered u a.goodsId := by
  cases h with
  | @repeated c k ho =>
    rw [List.mem_singleton] at ha
    subst ha
    exact ⟨c.userId, rfl, ho⟩
  | noSession | put | unknown | refused | sent | unsent =>
    rw [List.mem_singleton] at ha
    subst ha
    simp [answer, HttpResponse.error, HttpResponse.success, CodeMsg.SESSION_ERROR,
      CodeMsg.MIAO_SHA_OVER, CodeMsg.REPEATE_MIAOSHA] at hr
  | loggedIn | tooLate | counted | passed | notYet => cases ha

namespace OrderChain

/-- Whoever was refused for having an order has one. -/
def RepeatsRight (db : Db) (log : List Happening) : Prop :=
  ∀ r a, .answered r a ∈ log → a.result = .ok (.error CodeMsg.REPEATE_MIAOSHA) →
    ∃ u, a.userId = some u ∧ db.HasOrder u a.goodsId

/-- Orders stay. -/
theorem RepeatsRight.later {db db' : Db} {log : List Happening} (h : RepeatsRight db log)
    (hx : db.Extends db') : RepeatsRight db' log := by
  intro r a ha hr
  obtain ⟨u, hu, ho⟩ := h r a ha hr
  exact ⟨u, hu, hx.hasOrder_iff.2 (.inl ho)⟩

/-- No answer, nothing to show. -/
theorem RepeatsRight.append {db : Db} {log es : List Happening} (h : RepeatsRight db log)
    (hes : RepeatsRight db es) : RepeatsRight db (log ++ es) := by
  intro r a ha hr
  rcases List.mem_append.1 ha with ha | ha
  · exact h r a ha hr
  · exact hes r a ha hr

def Ok (db₀ : Db) (w : World) (log : List Happening) : Prop :=
  w.shop.Chained db₀ ∧ RepeatsRight w.shop.db log

def Fits (db₀ : Db) (w : World) (_ : List Happening) : Job → Prop
  | .consumer f => f.Chained db₀ w.shop
  | _ => True

variable {md5Hex : List UInt16 → String} {x : Input} {w w' : World} {j j' : Job}
  {es log : List Happening} {db₀ : Db}

/-- What a step answers is right. -/
theorem step_repeats (h : Job.Step md5Hex x w j w' j' es) (hw : w.shop.Chained db₀) :
    RepeatsRight w.shop.db es := by
  intro r a ha hr
  cases h.reports ha with
  | answered hs ha =>
    obtain ⟨u, hu, ho⟩ := hs.repeats ha hr
    obtain ⟨o, ho⟩ := Option.isSome_iff_exists.1 ho
    exact ⟨u, hu, hw.hasOrder ho⟩

theorem step_ok (h : Job.Step md5Hex x w j w' j' es) (hw : Ok db₀ w log) (hj : Fits db₀ w log j) :
    Ok db₀ w' (log ++ es) ∧ Fits db₀ w' (log ++ es) j' ∧
      ∀ i, Fits db₀ w log i → Fits db₀ w' (log ++ es) i := by
  obtain ⟨hchained, hrepeats⟩ := hw
  have hes := hrepeats.append (step_repeats h hchained)
  rcases h.records with ⟨f, f', evs, rfl, rfl, hs, -, -⟩ | ⟨hdb, hredis, hj'⟩
  · refine ⟨⟨hs.chained hchained hj, ?_⟩, hs.chained_frame hchained hj, ?_⟩
    · exact hes.later (hs.extends_ (Db.Extends.refl _))
    · intro i hi
      cases i with
      | consumer g => exact hi.later hs.orderInfo_mono (hs.newOrders_mono hchained.grows)
      | _ => trivial
  · refine ⟨⟨⟨?_, ?_, ?_⟩, ?_⟩, ?_, ?_⟩
    · exact hdb ▸ hchained.grows
    · exact hdb ▸ hchained.orders
    · rw [hredis, hdb]
      exact hchained.entries
    · exact hdb ▸ hes
    · cases j' with
      | consumer f' =>
        obtain ⟨msgs, rfl⟩ := hj' f' rfl
        trivial
      | _ => trivial
    · intro i hi
      cases i with
      | consumer g =>
        refine Frame.Chained.later hi ?_ ?_
        · rw [hdb]
          exact fun _ h => h
        · rw [hdb]
          exact fun _ h => h
      | _ => trivial

theorem spawn_ok (hf : (system md5Hex).allows w j = true) : Fits db₀ w log j := by
  obtain ⟨r, rfl⟩ | ⟨node, rfl⟩ | ⟨msgs, rfl⟩ := system_allows hf <;> trivial

end OrderChain

/-- **Orders chain correctly.** In every state any run of requests, start-ups, logins and
consumers can reach: an entry of the Redis map is under the key of exactly one pair and repeats an
order made since the start; every such order has its `order_info` row, for the same user and
goods; and whoever was told that they have bought already has. -/
theorem order_chain (md5Hex : List UInt16 → String) (db : Db)
    (miaoshaUser : Table MiaoshaUser Long MiaoshaUser.id) (bloomFileter : Long → Bool)
    (ls : List (Label Job Input)) :
    let p := System.after md5Hex (System.start db miaoshaUser bloomFileter) ls
    (∀ k o, p.store.shop.redis.miaoshaOrder k = some o →
      ∃ u g, k = orderKey (some u) (some g) ∧
        (∀ u' g', k = orderKey (some u') (some g') → u' = u ∧ g' = g) ∧
        o.userId = some u ∧ o.goodsId = some g ∧ o ∈ db.newOrders p.store.shop.db) ∧
    (∀ o ∈ db.newOrders p.store.shop.db, p.store.shop.db.InfoOf o) ∧
    (∀ r a, .answered r a ∈ p.log → a.result = .ok (.error CodeMsg.REPEATE_MIAOSHA) →
      ∃ u, a.userId = some u ∧ p.store.shop.db.HasOrder u a.goodsId) := by
  intro p
  have hstart : Pool.Each (OrderChain.Ok db) (OrderChain.Fits db)
      (System.start db miaoshaUser bloomFileter) := by
    refine ⟨⟨⟨Db.Extends.refl db, ?_, ?_⟩, ?_⟩, ?_⟩
    · intro o ho
      have : db.newOrders db = [] := db.newOrders_self
      rw [show (System.start db miaoshaUser bloomFileter).store.shop.db = db from rfl, this] at ho
      cases ho
    · intro k o ho
      cases ho
    · intro r a ha
      cases ha
    · intro t ht
      cases ht
  obtain ⟨⟨hchained, hrepeats⟩, -⟩ : Pool.Each (OrderChain.Ok db) (OrderChain.Fits db) p :=
    Pool.invariant (system md5Hex)
      (fun _ _ _ hp hm => hm.each (fun _ _ _ _ hf => OrderChain.spawn_ok hf)
        (fun _ _ _ _ _ _ _ hw hf hs => OrderChain.step_ok (system_step hs) hw hf) hp) ls hstart
  refine ⟨?_, hchained.orders, hrepeats⟩
  intro k o ho
  obtain ⟨hmem, u, g, hk, hu, hg⟩ := hchained.entries k o ho
  refine ⟨u, g, hk, ?_, hu, hg, hmem⟩
  intro u' g' hk'
  rw [hk] at hk'
  obtain ⟨rfl, rfl⟩ := orderKey_injective hk'
  exact ⟨rfl, rfl⟩

end CfsShop
