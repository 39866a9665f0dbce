/-
Admission per goods: do requests for one goods go as if the shop sold nothing
else?

The counter is named by the constant followed by the word `goodsId`, not by
the goods' number, so there is one for all goods: the start-up leaves the last
stock in it, and every request takes from it. `admission_iff` has the request
sequences for which a goods does not notice.
-/
import CfsShop.Controller

namespace CfsShop

/-- A controller after its start-up on a catalogue. -/
def Web.opened (w : Web) (goodsList : List GoodsVo) : Web :=
  ((MiaoShaController.afterPropertiesSet goodsList).exec w).2

/-- The answers to the requests for a goods, in a sequence of requests handled one by one. -/
def answersFor (g : Long) : Web → List Visit → List (Except Ex (HttpResponse Int))
  | _, [] => []
  | w, v :: vs =>
    if v.goodsId = g then v.answer w :: answersFor g (v.handle w) vs else answersFor g (v.handle w) vs

/-- Messages for a goods at the broker. -/
def enqueuedFor (g : Long) (w : Web) : Nat := w.broker.countP fun m => m.body.goodsId = g

/-- A request of a logged-in user for a goods of the catalogue, with RocketMQ up. -/
structure Visit.Regular (goodsList : List GoodsVo) (v : Visit) : Prop where
  user : v.userId.isSome
  goods : ∃ vo ∈ goodsList, vo.id = some v.goodsId
  up : v.up = true

/-- The answer to a request that gets a unit. -/
def Visit.served (w : Web) (v : Visit) : Except Ex (HttpResponse Int) :=
  if ∃ u ∈ v.userId, w.Ordered u v.goodsId then .ok (.error CodeMsg.REPEATE_MIAOSHA)
    else .ok (.success 0)

/-- The answer to a request that gets none. -/
def soldOutAnswer : Except Ex (HttpResponse Int) := .ok (.error CodeMsg.MIAO_SHA_OVER)

theorem Visit.served_ne (w : Web) (v : Visit) : v.served w ≠ soldOutAnswer := by
  unfold Visit.served soldOutAnswer
  split <;> simp [HttpResponse.error, HttpResponse.success, CodeMsg.REPEATE_MIAOSHA,
    CodeMsg.MIAO_SHA_OVER]

/-! ## Requests one by one -/

/-- One request, while the marks of the goods with units left are false. -/
theorem Visit.handle_regular {w : Web} {v : Visit} (hu : v.userId.isSome) (hup : v.up = true)
    (hmark : 0 < w.counter → w.localOverMap (some v.goodsId) = some false) :
    v.answer w = (if 0 < w.counter then v.served w else soldOutAnswer) ∧
      (v.handle w).counter = w.counter - 1 ∧
      (0 < w.counter → (v.handle w).localOverMap = w.localOverMap) ∧
      (v.handle w).redis.miaoshaOrder = w.redis.miaoshaOrder := by
  have ho := v.outcome w
  generalize v.answer w = r at ho
  generalize v.handle w = w' at ho
  cases ho with
  | noSession h => simp [h] at hu
  | soldOut _ hle => exact ⟨by rw [if_neg (by omega)]; rfl, by simp, fun h => by omega, rfl⟩
  | unknown _ hpos hm => rw [hmark hpos] at hm; cases hm
  | marked _ hpos hm => rw [hmark hpos] at hm; cases hm
  | repeated h hpos hm ho =>
    refine ⟨?_, by simp, fun _ => rfl, rfl⟩
    rw [if_pos hpos, Visit.served, if_pos ⟨_, h, ho⟩]
  | sent h hpos hm ho =>
    refine ⟨?_, by simp, fun _ => rfl, rfl⟩
    rw [if_pos hpos, Visit.served, if_neg]
    intro ⟨u, hu', ho'⟩
    rw [h, Option.mem_some_iff] at hu'
    subst hu'
    exact ho ho'
  | unsent _ _ _ _ h => rw [hup] at h; cases h

theorem Visit.served_congr {w w' : Web} (h : w'.redis.miaoshaOrder = w.redis.miaoshaOrder) (v : Visit) :
    v.served w' = v.served w := by
  have hiff : (∃ u ∈ v.userId, w'.Ordered u v.goodsId) ↔ ∃ u ∈ v.userId, w.Ordered u v.goodsId := by
    simp only [Web.Ordered, h]
  exact if_congr hiff rfl rfl

/-- A sequence of requests: as many as there are units are served, whoever they are for, and the
rest is told that the sale is over. -/
theorem answersFor_eq (g : Long) (vs : List Visit) (w : Web) (hu : ∀ v ∈ vs, v.userId.isSome)
    (hup : ∀ v ∈ vs, v.up = true)
    (hmark : 0 < w.counter → ∀ v ∈ vs, w.localOverMap (some v.goodsId) = some false) :
    answersFor g w vs =
      ((vs.take w.counter.toNat).filter fun v => v.goodsId = g).map (fun v => v.served w) ++
        ((vs.drop w.counter.toNat).filter fun v => v.goodsId = g).map fun _ => soldOutAnswer := by
  induction vs generalizing w with
  | nil => simp [answersFor]
  | cons v vs ih =>
    obtain ⟨hanswer, hcounter, hmap, horders⟩ := Visit.handle_regular (hu v List.mem_cons_self)
      (hup v List.mem_cons_self) fun hpos => hmark hpos v List.mem_cons_self
    have hrest := ih (v.handle w) (fun v' hv' => hu v' (List.mem_cons_of_mem v hv'))
      (fun v' hv' => hup v' (List.mem_cons_of_mem v hv')) fun hpos v' hv' => by
        rw [hmap (by omega)]
        exact hmark (by omega) v' (List.mem_cons_of_mem v hv')
    simp only [Visit.served_congr horders, hcounter] at hrest
    by_cases hpos : 0 < w.counter
    · obtain ⟨k, hk⟩ : ∃ k, w.counter.toNat = k + 1 := ⟨w.counter.toNat - 1, by omega⟩
      have hk' : (w.counter - 1).toNat = k := by omega
      rw [hk'] at hrest
      rw [if_pos hpos] at hanswer
      rw [answersFor, hk, List.take_succ_cons, List.drop_succ_cons, List.filter_cons, hrest, hanswer]
      by_cases hg : v.goodsId = g <;> simp [hg]
    · have hk : w.counter.toNat = 0 := by omega
      have hk' : (w.counter - 1).toNat = 0 := by omega
      rw [hk', List.take_zero, List.drop_zero] at hrest
      rw [if_neg hpos] at hanswer
      rw [answersFor, hk, List.take_zero, List.drop_zero, List.filter_cons, hrest, hanswer]
      by_cases hg : v.goodsId = g <;> simp [hg]

/-- No more messages than there were units, for whatever goods. -/
theorem enqueuedFor_le (g : Long) (vs : List Visit) (w : Web) :
    enqueuedFor g (Run.run Visit.handle w vs) ≤ enqueuedFor g w + w.counter.toNat := by
  induction vs generalizing w with
  | nil => simp
  | cons v vs ih =>
    have hstep : enqueuedFor g (v.handle w) + (v.handle w).counter.toNat ≤
      enqueuedFor g w + w.counter.toNat := by
      have ho := v.outcome w
      generalize v.answer w = r at ho
      generalize v.handle w = w' at ho
      cases ho with
      | noSession => exact Nat.le_refl _
      | @sent u hu hpos =>
        simp only [enqueuedFor, Web.broker_enqueue, Web.broker_setCounter, List.countP_append,
          Web.counter_enqueue, Web.counter_setCounter]
        have := List.countP_le_length (p := fun m : Message => decide (m.body.goodsId = g))
          (l := [Message.new MQConfig.MIAOSHA_QUEUE
            { user := w.redis.miaoShaUser u, goodsId := v.goodsId }])
        simp only [List.length_singleton] at this
        omega
      | soldOut =>
        simp only [enqueuedFor, Web.broker_putOver, Web.broker_setCounter, Web.counter_putOver,
          Web.counter_setCounter]
        omega
      | _ =>
        simp only [enqueuedFor, Web.broker_setCounter, Web.counter_setCounter]
        omega
    exact Nat.le_trans (ih (v.handle w)) hstep

/-! ## One goods among others -/

/-- Filtering before or after cutting off comes to the same exactly when the cut falls among
the picked ones alone, or behind the last of them. -/
theorem map_take_filter_iff {α β : Type} {p : α → Bool} {f : α → β} {b : β} (hf : ∀ a, f a ≠ b)
    (l : List α) (k : Nat) :
    ((l.take k).filter p).map f ++ ((l.drop k).filter p).map (fun _ => b) =
        ((l.filter p).take k).map f ++ ((l.filter p).drop k).map (fun _ => b) ↔
      (∀ a ∈ l.take k, p a) ∨ ∀ a ∈ l.drop k, ¬ p a := by
  have hsplit : l.filter p = (l.take k).filter p ++ (l.drop k).filter p := by
    rw [← List.filter_append, List.take_append_drop]
  have hlen : ((l.take k).filter p).length ≤ k :=
    Nat.le_trans (List.length_filter_le p (l.take k)) (List.length_take_le k l)
  have hall : (∀ a ∈ l.take k, p a) ↔ ((l.take k).filter p).length = (l.take k).length := by
    rw [List.length_filter_eq_length_iff]
  rw [hsplit, List.take_append, List.drop_append, List.take_of_length_le hlen,
    List.drop_of_length_le hlen,
    List.nil_append, List.map_append, List.append_assoc, List.append_cancel_left_eq]
  cases hb : (l.drop k).filter p with
  | nil =>
    refine iff_of_true (by simp) (.inr ?_)
    intro a ha
    exact List.filter_eq_nil_iff.1 hb a ha
  | cons x xs =>
    -- Something is picked behind the cut, so the cut is at `k`.
    have hx : x ∈ (l.drop k).filter p := by rw [hb]; exact List.mem_cons_self
    obtain ⟨hxl, hxp⟩ := List.mem_filter.1 hx
    have htake : (l.take k).length = k := by
      have hpos := List.length_pos_of_mem hxl
      rw [List.length_drop] at hpos
      rw [List.length_take]
      omega
    rw [hall, htake]
    rcases Nat.eq_zero_or_pos (k - ((l.take k).filter p).length) with hd | hd
    · rw [hd]
      exact iff_of_true (by simp) (.inl (by omega))
    · obtain ⟨d, hd'⟩ : ∃ d, k - ((l.take k).filter p).length = d + 1 :=
        ⟨k - ((l.take k).filter p).length - 1, by omega⟩
      rw [hd', List.take_succ_cons, List.map_cons, List.map_cons, List.cons_append, List.cons.injEq]
      refine iff_of_false (fun h => hf x h.1.symm) ?_
      intro hx
      rcases hx with h | h
      · omega
      · exact h x hxl hxp

/-- Requests for `g` are answered as if `vo` were the whole catalogue and nobody came for anything
else; the counter starts at the stock `n` of `vo`; and never more than `n` messages are
sent for `g`. -/
def Unnoticed (w : Web) (goodsList : List GoodsVo) (vo : GoodsVo) (g : Long) (n : Int)
    (vs : List Visit) : Prop :=
  answersFor g (w.opened goodsList) vs =
    answersFor g (w.opened [vo]) (vs.filter fun v => v.goodsId = g) ∧
    (w.opened goodsList).counter = n ∧
    Run.Always Visit.handle (fun w' => (enqueuedFor g w' : Int) - enqueuedFor g w ≤ n)
      (w.opened goodsList) vs

/-- The last goods of the catalogue has the stock `n`, not negative, and either the first `n`
requests are all for `g` or none after them is. -/
def KeepsApart (goodsList : List GoodsVo) (g : Long) (n : Int) (vs : List Visit) : Prop :=
  0 ≤ n ∧ goodsList.getLast?.bind (·.stockCount) = some n ∧
    ((∀ v ∈ vs.take n.toNat, v.goodsId = g) ∨ ∀ v ∈ vs.drop n.toNat, v.goodsId ≠ g)

instance (goodsList : List GoodsVo) (g : Long) (n : Int) (vs : List Visit) :
    Decidable (KeepsApart goodsList g n vs) :=
  inferInstanceAs (Decidable (_ ∧ _ ∧ _))

/-- What the start-up leaves, for a catalogue without NULL stocks. -/
theorem Web.opened_spec (w : Web) (goodsList : List GoodsVo)
    (h : ∀ vo ∈ goodsList, vo.stockCount.isSome) :
    (w.opened goodsList).counter = (goodsList.getLast?.bind (·.stockCount)).getD w.counter ∧
      (∀ vo ∈ goodsList, (w.opened goodsList).localOverMap vo.id = some false) ∧
      (w.opened goodsList).broker = w.broker ∧
      (w.opened goodsList).redis.miaoshaOrder = w.redis.miaoshaOrder := by
  obtain ⟨w', he, hcounter, hmarks, -, hbroker, horders⟩ :=
    MiaoShaController.exec_afterPropertiesSet goodsList h w
  have hw : w.opened goodsList = w' := by rw [Web.opened, he]
  rw [hw]
  exact ⟨hcounter, hmarks, hbroker, horders⟩

theorem getLast_stock {goodsList : List GoodsVo} {vo : GoodsVo}
    (h : ∀ vo ∈ goodsList, vo.stockCount.isSome)
    (hvo : vo ∈ goodsList) : ∃ k, goodsList.getLast?.bind (·.stockCount) = some k := by
  have hne : goodsList ≠ [] := List.ne_nil_of_mem hvo
  obtain ⟨k, hk⟩ := Option.isSome_iff_exists.1 (h _ (List.getLast_mem hne))
  exact ⟨k, by rw [List.getLast?_eq_some_getLast hne]; exact hk⟩

/-- **Admission per goods, exactly when.** For a catalogue the start-up loads and any sequence
of requests by logged-in users for its goods, the requests for `g` go as if `g` were sold
alone if and only if the last goods of the catalogue happens to have the stock of `g`
and either the first so many requests are all for `g` or none after them is. -/
theorem admission_iff (db : Db) (w : Web) (vo : GoodsVo) (g : Long) (n : Int) (vs : List Visit)
    (hstocks : ∀ vo ∈ GoodsMapper.listGoodsVo db, vo.stockCount.isSome)
    (hvo : vo ∈ GoodsMapper.listGoodsVo db) (hid : vo.id = some g) (hn : vo.stockCount = some n)
    (hvs : ∀ v ∈ vs, v.Regular (GoodsMapper.listGoodsVo db)) :
    Unnoticed w (GoodsMapper.listGoodsVo db) vo g n vs ↔
      KeepsApart (GoodsMapper.listGoodsVo db) g n vs := by
  generalize GoodsMapper.listGoodsVo db = goodsList at hstocks hvo hvs ⊢
  obtain ⟨hcounter, hmarks, hbroker, horders⟩ := w.opened_spec goodsList hstocks
  obtain ⟨hcounter₁, hmarks₁, -, horders₁⟩ := w.opened_spec [vo] (by simp [hn])
  obtain ⟨k, hk⟩ := getLast_stock hstocks hvo
  rw [hk, Option.getD_some] at hcounter
  have hcounter₁ : (w.opened [vo]).counter = n := by simpa [hn] using hcounter₁
  rw [Unnoticed, KeepsApart, hcounter, hk, Option.some.injEq]
  by_cases hkn : k = n
  · subst hkn
    by_cases hpos : 0 ≤ k
    · have hnever : Run.Always Visit.handle (fun w' => (enqueuedFor g w' : Int) - enqueuedFor g w ≤ k)
          (w.opened goodsList) vs := by
        rw [Run.always_iff_prefix]
        intro pre _
        have hle := enqueuedFor_le g pre (w.opened goodsList)
        have hstart : enqueuedFor g (w.opened goodsList) = enqueuedFor g w := by
          rw [enqueuedFor, hbroker, ← enqueuedFor]
        rw [hstart, hcounter] at hle
        omega
      have hfull := answersFor_eq g vs (w.opened goodsList) (fun v hv => (hvs v hv).user)
        (fun v hv => (hvs v hv).up)
        fun _ v hv => by
          obtain ⟨vo', hvo', hid'⟩ := (hvs v hv).goods
          rw [← hid']
          exact hmarks vo' hvo'
      have hsolo := answersFor_eq g (vs.filter fun v => v.goodsId = g) (w.opened [vo])
        (fun v hv => (hvs v (List.mem_of_mem_filter hv)).user)
          (fun v hv => (hvs v (List.mem_of_mem_filter hv)).up)
        fun _ v hv => by
          have hg : v.goodsId = g := by simpa using (List.mem_filter.1 hv).2
          rw [hg, ← hid]
          exact hmarks₁ vo List.mem_cons_self
      have hpicked : ∀ l, List.Sublist l (vs.filter fun v => v.goodsId = g) →
        l.filter (fun v => v.goodsId = g) = l := fun l hl =>
        List.filter_eq_self.2 fun v hv => (List.mem_filter.1 (hl.subset hv)).2
      simp only [hcounter, Visit.served_congr horders] at hfull
      simp only [hcounter₁, Visit.served_congr horders₁, hpicked _ (List.take_sublist _ _),
        hpicked _ (List.drop_sublist _ _)] at hsolo
      have hcut := map_take_filter_iff (p := fun v : Visit => decide (v.goodsId = g))
        (Visit.served_ne w) vs k.toNat
      simp only [decide_eq_true_eq] at hcut
      rw [hfull, hsolo, hcut]
      exact ⟨fun h => ⟨hpos, rfl, h.1⟩, fun h => ⟨h.2.2, rfl, hnever⟩⟩
    · refine iff_of_false ?_ fun h => hpos h.1
      intro h
      have hstart := h.2.2.head
      simp only [enqueuedFor, hbroker] at hstart
      omega
  · exact iff_of_false (fun h => hkn h.2.1) fun h => hkn h.2.1

/-- Two goods, two units of the first and one of the second. The start-up leaves 1 in the counter,
and of two users for goods 1 the second is told that the sale is over; sold alone, goods 1
goes to both. -/
theorem last_stock_counts_for_all :
    let vs : List Visit := [{ sessionUser := some { userId := some 7 }, goodsId := 1 },
      { sessionUser := some { userId := some 8 }, goodsId := 1 }]
    let vo : GoodsVo := .join { goodsId := some 1, stockCount := some 2, miaoshaPrice := some 1 }
      (some { id := 1, goodsName := some "iphoneX" })
    vo ∈ GoodsMapper.listGoodsVo (Shop.two 2 1).db ∧
      (Web.closed.opened (GoodsMapper.listGoodsVo (Shop.two 2 1).db)).counter = 1 ∧
      answersFor 1 (Web.closed.opened (GoodsMapper.listGoodsVo (Shop.two 2 1).db)) vs =
        [.ok (.success 0), .ok (.error CodeMsg.MIAO_SHA_OVER)] ∧
      answersFor 1 (Web.closed.opened [vo]) vs = [.ok (.success 0), .ok (.success 0)] ∧
      ¬ Unnoticed Web.closed (GoodsMapper.listGoodsVo (Shop.two 2 1).db) vo 1 2 vs := by
  refine ⟨by decide, by decide, by decide, by decide, ?_⟩
  intro h
  have hcounter := h.2.1
  revert hcounter
  decide

/-- Two goods with two units each. Three users come, one of them for the second goods, and that one
while the counter lasts. -/
theorem unnoticed_among_others :
    Unnoticed Web.closed (GoodsMapper.listGoodsVo (Shop.two 2 2).db)
      (.join { goodsId := some 2, stockCount := some 2, miaoshaPrice := some 1 }
        (some { id := 2, goodsName := some "mate10" }))
      2 2 [{ sessionUser := some { userId := some 7 }, goodsId := 1 },
        { sessionUser := some { userId := some 8 }, goodsId := 2 },
        { sessionUser := some { userId := some 9 }, goodsId := 1 }] := by
  refine (admission_iff (Shop.two 2 2).db Web.closed _ 2 2 _ (by decide) (by decide) rfl rfl ?_).2
    (by decide)
  intro v hv
  simp only [List.mem_cons, List.not_mem_nil, or_false] at hv
  rcases hv with rfl | rfl | rfl
  · exact ⟨rfl, by decide, rfl⟩
  · exact ⟨rfl, by decide, rfl⟩
  · exact ⟨rfl, by decide, rfl⟩

end CfsShop
