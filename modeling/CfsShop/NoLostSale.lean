/-
Deliveries handled at the same time, each user coming once for a goods and
nobody failing: nothing that could be sold is left over.

A consumer may act on a stock that is long out of date, and give up on a goods
as sold out or have its update turned down. Either way the stock is at 0 (or
below) from then on, so whoever gave up did so for good reason. The books
(`Books.account`): every message that arrived is still waiting for its unit,
has taken one, or was turned away.
-/
import CfsShop.Delivery

namespace CfsShop

/-! ## Arrivals -/

/-- The message a label starts a consumer with. -/
def messageOf : Label Frame Date → Option MiaoshaMessage
  | .spawn (.loop [m]) => some m
  | _ => none

/-- Deliveries of one message each, and no failures. -/
def Smooth : Label Frame Date → Prop
  | .spawn f => ∃ m, f = .loop [m]
  | .run _ _ => True
  | .stop _ => False

/-- The messages delivered, in order. -/
def arrivals (ls : List (Label Frame Date)) : List MiaoshaMessage := ls.filterMap messageOf

/-- Messages that count for a pick. -/
def arrivedFor (P : Pick) (ms : List MiaoshaMessage) : Nat :=
  ms.countP fun m => P m.userId (some m.goodsId)

/-- Messages turned away because the goods was sold out. -/
def turnedAwayFor (P : Pick) (log : List Event) : Nat :=
  log.countP fun
    | .turnedAway m => P m.userId (some m.goodsId)
    | _ => false

@[simp] theorem turnedAwayFor_nil (P : Pick) : turnedAwayFor P [] = 0 := rfl

@[simp] theorem turnedAwayFor_append (P : Pick) (log es : List Event) :
    turnedAwayFor P (log ++ es) = turnedAwayFor P log + turnedAwayFor P es := List.countP_append

@[simp] theorem turnedAwayFor_turnedAway (P : Pick) (m : MiaoshaMessage) :
    turnedAwayFor P [.turnedAway m] = (P m.userId (some m.goodsId)).toNat := by
  cases h : P m.userId (some m.goodsId) <;> simp [turnedAwayFor, h]

@[simp] theorem turnedAwayFor_reduced (P : Pick) (u g : Long) :
    turnedAwayFor P [.reduced u g] = 0 := rfl

@[simp] theorem turnedAwayFor_refused (P : Pick) (u g : Long) :
    turnedAwayFor P [.refused u g] = 0 := rfl

/-! ## One statement -/

namespace Frame

/-- Still to take its unit. -/
def waiting (P : Pick) : Frame → Nat
  | loop msgs => arrivedFor P msgs
  | getMiaoshaOrder l | reduceStock l => arrivedFor P [l.message]
  | _ => 0

/-- A consumer of one deliverable message that has not failed. -/
def Plain (db : Db) : Frame → Prop
  | loop msgs => msgs.length ≤ 1 ∧ ∀ m ∈ msgs, db.Deliverable m
  | getMiaoshaOrder l | reduceStock l | insert l | lastInsertId l _ | insertMiaoshaOrder l _
  | putMiaoshaOrder l _
  | setGoodsOver l => l.rest = []
  | threw _ => False

/-- Statements left to run, at most. -/
def left : Frame → Nat
  | loop msgs => 8 * msgs.length
  | getMiaoshaOrder l => 7 + 8 * l.rest.length
  | reduceStock l => 6 + 8 * l.rest.length
  | insert l => 5 + 8 * l.rest.length
  | lastInsertId l _ => 4 + 8 * l.rest.length
  | insertMiaoshaOrder l _ => 3 + 8 * l.rest.length
  | putMiaoshaOrder l _ | setGoodsOver l => 1 + 8 * l.rest.length
  | threw _ => 0

end Frame

@[simp] theorem arrivedFor_nil (P : Pick) : arrivedFor P [] = 0 := rfl

theorem arrivedFor_append (P : Pick) (ms ms' : List MiaoshaMessage) :
    arrivedFor P (ms ++ ms') = arrivedFor P ms + arrivedFor P ms' := List.countP_append

theorem arrivedFor_one (P : Pick) (m : MiaoshaMessage) :
    arrivedFor P [m] = (P m.userId (some m.goodsId)).toNat := by
  cases h : P m.userId (some m.goodsId) <;> simp [arrivedFor, h]

namespace Frame

variable {now : Date} {s s' : Shop} {f f' : Frame} {es : List Event}

theorem Step.left_lt (h : Step now s f s' f' es) : f'.left < f.left := by
  cases h with
  | lookedUp _ _ _ hrest =>
    subst hrest
    simp only [left, List.length_cons]
    omega
  | _ =>
    simp only [left, List.length_cons, List.length_nil]
    omega

/-- A plain consumer stops only at its end. -/
theorem Plain.ended {db : Db} (h : f.Plain db) (hs : f.step now s = none) : f = loop [] := by
  cases f with
  | loop msgs =>
    cases msgs with
    | nil => rfl
    | cons m rest =>
      simp only [step] at hs
      repeat' split at hs
      all_goals cases hs
  | threw e => exact h.elim
  | getMiaoshaOrder l =>
    rw [step_getMiaoshaOrder] at hs
    cases hs
  | reduceStock l =>
    simp only [step] at hs
    split at hs <;> cases hs
  | insertMiaoshaOrder l id =>
    simp only [step] at hs
    split at hs <;> cases hs
  | _ => cases hs

end Frame

/-- What a statement does to a plain consumer: it stays one, its message is accounted for, and
who is turned away found nothing in stock. The two ways to go wrong, a repetition and a
taken key, are ruled out by `hfree`. -/
theorem Frame.step_plain {now : Date} {s s' : Shop} {f f' : Frame} {es : List Event} {db₀ : Db}
    (h : f.step now s = some (s', f', es)) (hp : f.Plain db₀)
    (hd : ∀ m, db₀.Deliverable m → s.db.Deliverable m)
    (hfree : ∀ l, (f = .getMiaoshaOrder l ∨ ∃ id, f = .insertMiaoshaOrder l id) →
      ¬ s.db.HasOrder l.userId l.goodsId) :
    f'.Plain db₀ ∧ (∀ P, f'.waiting P + reducedFor P es + turnedAwayFor P es = f.waiting P) ∧
      refusedFor anyone es = 0 ∧
      ∀ g, 0 < turnedAwayFor (forGoods g) es → ∀ n, s.db.stock (some g) = some n → n ≤ 0 := by
  cases step_spec h with
  | @failed m rest e => exact absurd h (step_loop_deliverable (hd m (hp.2 m List.mem_cons_self)))
  | @soldOut m rest n hn hle =>
    have hrest : rest = [] := List.length_eq_zero_iff.1
      (by have := hp.1; simp only [List.length_cons] at this; omega)
    subst hrest
    refine ⟨⟨by simp, by simp⟩, fun P => by simp [waiting, arrivedFor_one], rfl, ?_⟩
    intro g hg n' hn'
    have : m.goodsId = g := by
      by_contra hne
      simp [forGoods, hne] at hg
    rw [this, hn', Option.some.injEq] at hn
    omega
  | @lookedUp m rest n l hn hpos hm hrest =>
    have hnil : rest = [] := List.length_eq_zero_iff.1
      (by have := hp.1; simp only [List.length_cons] at this; omega)
    subst hm hnil
    exact ⟨hrest.symm, fun P => by simp [waiting], rfl, by simp⟩
  | @repeated l ho => exact absurd ho (hfree l (.inl rfl))
  | notYet => exact ⟨hp, fun P => by simp [waiting], rfl, by simp⟩
  | reduced => exact ⟨hp, fun P => by simp [waiting, arrivedFor_one], rfl, by simp⟩
  | @tooLate l hno =>
    refine ⟨hp, fun P => by simp [waiting, arrivedFor_one], rfl, ?_⟩
    intro g hg n hn
    have : l.goodsId = g := by
      by_contra hne
      simp [forGoods, hne] at hg
    exact hno n (this ▸ hn)
  | inserted => exact ⟨hp, fun P => by simp [waiting], rfl, by simp⟩
  | keyed => exact ⟨hp, fun P => by simp [waiting], rfl, by simp⟩
  | ordered => exact ⟨hp, fun P => by simp [waiting], rfl, by simp⟩
  | @duplicate l id ho => exact absurd ho (hfree l (.inr ⟨id, rfl⟩))
  | @put l o =>
    have hrest : l.rest = [] := hp
    rw [hrest]
    exact ⟨⟨by simp, by simp⟩, fun P => by simp [waiting], rfl, by simp⟩
  | @marked l =>
    have hrest : l.rest = [] := hp
    rw [hrest]
    exact ⟨⟨by simp, by simp⟩, fun P => by simp [waiting], rfl, by simp⟩

/-! ## Any number of consumers -/

/-- The books of a pool that the messages `ms` have come to. -/
structure Books (s₀ : Shop) (ms : List MiaoshaMessage) (p : Sale) : Prop where
  ledger : Ledger s₀ p
  plain : ∀ t ∈ p.threads, t.running = true ∧ t.frame.Plain s₀.db
  account : ∀ P,
    Pool.tally (Frame.waiting P) p.threads + reducedFor P p.log + turnedAwayFor P p.log =
      arrivedFor P ms
  refused : refusedFor anyone p.log = 0
  gone : ∀ g, 0 < turnedAwayFor (forGoods g) p.log → ∀ n, p.store.db.stock (some g) = some n → n ≤ 0

/-- Messages each user sends once for a goods, having no order for it. -/
structure Fresh (db : Db) (ms : List MiaoshaMessage) : Prop where
  deliverable : ∀ m ∈ ms, db.Deliverable m
  distinct : (ms.map fun m => (m.userId, m.goodsId)).Nodup
  unordered : ∀ m ∈ ms, ∀ u, m.userId = some u → ¬ db.HasOrder u m.goodsId

namespace Fresh

variable {db : Db} {ms ms' : List MiaoshaMessage} {u g : Long}

theorem arrivedFor_pair (h : Fresh db ms) : arrivedFor (forPair u g) ms ≤ 1 := by
  have hcount := List.nodup_iff_count_le_one.1 h.distinct (some u, g)
  rw [List.count, List.countP_map] at hcount
  refine le_trans (List.countP_mono_left ?_) hcount
  intro m _ hm
  simpa [forPair] using hm

theorem not_hasOrder (h : Fresh db ms) (hpos : 0 < arrivedFor (forPair u g) ms) :
    ¬ db.HasOrder u g := by
  obtain ⟨m, hm, hk⟩ := List.countP_pos_iff.1 hpos
  simp only [forPair, Option.some.injEq, decide_eq_true_eq] at hk
  obtain ⟨hu, hg⟩ := hk
  exact hg ▸ h.unordered m hm u hu

theorem left (h : Fresh db (ms ++ ms')) : Fresh db ms where
  deliverable m hm := h.deliverable m (List.mem_append_left _ hm)
  distinct := by
    have := h.distinct
    rw [List.map_append] at this
    exact (List.nodup_append.1 this).1
  unordered m hm := h.unordered m (List.mem_append_left _ hm)

end Fresh

namespace Books

variable {s₀ : Shop} {ms : List MiaoshaMessage} {p : Sale}

theorem start (s : Shop) : Books s [] (Sale.start s) where
  ledger := .start s
  plain := by simp [Sale.start]
  account P := rfl
  refused := rfl
  gone g h := absurd h (Nat.lt_irrefl 0)

theorem deliverable (h : Books s₀ ms p) (m : MiaoshaMessage) (hm : s₀.db.Deliverable m) :
    p.store.db.Deliverable m := by
  refine ⟨⟨?_, ?_⟩, hm.2⟩
  · rw [h.ledger.goods]
    exact hm.1.1
  · rw [h.ledger.stock, Option.isSome_map]
    exact hm.1.2

/-- Nobody has ordered for a user who is still at it. -/
theorem free (h : Books s₀ ms p) (hf : Fresh s₀.db ms) {t : Thread Frame} (ht : t ∈ p.threads)
    (l : Locals) (hl : t.frame = .getMiaoshaOrder l ∨ ∃ id, t.frame = .insertMiaoshaOrder l id) :
    ¬ p.store.db.HasOrder l.userId l.goodsId := by
  have haccount := h.account (forPair l.userId l.goodsId)
  have horders := h.ledger.orders (forPair l.userId l.goodsId)
  have hone := hf.arrivedFor_pair (u := l.userId) (g := l.goodsId)
  have hwait := Pool.le_tally (Frame.waiting (forPair l.userId l.goodsId)) ht
  have howe := Pool.le_tally (Frame.inCreateOrder (forPair l.userId l.goodsId)) ht
  have hpos : 0 < arrivedFor (forPair l.userId l.goodsId) ms ∧
      Db.ordersSince (forPair l.userId l.goodsId) s₀.db p.store.db = 0 := by
    rcases hl with hl | ⟨id, hl⟩
    · have hw : t.frame.waiting (forPair l.userId l.goodsId) = 1 := by
        simp [hl, Frame.waiting, arrivedFor_one, forPair]
      omega
    · have hw : t.frame.inCreateOrder (forPair l.userId l.goodsId) = 1 := by
        simp [hl, Frame.inCreateOrder, l.user_id, l.goods_id, forPair]
      omega
  rw [h.ledger.grows.hasOrder_iff]
  intro h
  rcases h with ho | hnew
  · exact hf.not_hasOrder hpos.1 ho
  · omega

theorem spawn (h : Books s₀ ms p) (m : MiaoshaMessage) (hm : s₀.db.Deliverable m) :
    Books s₀ (ms ++ [m]) { p with threads := p.threads ++ [⟨.loop [m], true⟩] } where
  ledger := h.ledger.move p (.spawn (.loop [m])) _ (.spawn rfl)
  plain := by
    rw [Run.forall_mem_snoc]
    exact ⟨h.plain, rfl, by simp, by simpa using hm⟩
  account P := by
    have := h.account P
    simp only [Pool.tally_snoc, arrivedFor_append, Frame.waiting]
    omega
  refused := h.refused
  gone := h.gone

theorem run {now : Date} {f f' : Frame} {s s' : Shop} {es log : List Event}
    {pre post : List (Thread Frame)}
    (h : Books s₀ ms ⟨s, pre ++ ⟨f, true⟩ :: post, log⟩) (hf : Fresh s₀.db ms)
    (hs : f.step now s = some (s', f', es)) :
    Books s₀ ms ⟨s', pre ++ ⟨f', true⟩ :: post, log ++ es⟩ := by
  have hmem : ⟨f, true⟩ ∈ pre ++ (⟨f, true⟩ : Thread Frame) :: post := by simp
  obtain ⟨hplain, haccount, hrefused, hover⟩ := Frame.step_plain hs (h.plain _ hmem).2 h.deliverable
    fun l hl => h.free hf hmem l hl
  refine ⟨h.ledger.run (Frame.step_spec hs), ?_, ?_, ?_, ?_⟩
  · rw [Pool.forall_mem_split]
    exact ⟨⟨rfl, hplain⟩, (Pool.forall_mem_split.1 h.plain).2⟩
  · intro P
    have := h.account P
    have := haccount P
    simp only [Pool.tally_split, reducedFor_append, turnedAwayFor_append] at *
    omega
  · rw [refusedFor_append, hrefused]
    exact h.refused
  · intro g hg n hn
    -- Whoever was turned away saw no stock, and stock does not come back.
    have hstock := ((Frame.step_spec hs).stock g).1
    simp only at hn
    rw [hn] at hstock
    obtain ⟨n₀, hn₀, hle⟩ := Option.map_eq_some_iff.1 hstock.symm
    rw [turnedAwayFor_append] at hg
    have hn₀' : n₀ ≤ 0 := by
      rcases Nat.eq_zero_or_pos (turnedAwayFor (forGoods g) log) with h0 | hpos
      · exact hover g (by omega) n₀ hn₀
      · exact h.gone g hpos n₀ hn₀
    omega

theorem exec (h : Books s₀ ms p) (l : Label Frame Date) (hl : Smooth l)
    (hf : Fresh s₀.db (ms ++ (messageOf l).toList)) :
    Books s₀ (ms ++ (messageOf l).toList) (p.exec consumers l) := by
  cases l with
  | spawn f =>
    obtain ⟨m, rfl⟩ := hl
    exact h.spawn m (hf.deliverable m (by simp [messageOf]))
  | run i now =>
    simp only [messageOf, Option.toList_none, List.append_nil] at hf ⊢
    generalize hp' : p.exec consumers (.run i now) = p'
    have hm := Pool.exec_move consumers p (.run i now)
    rw [hp'] at hm
    cases hm with
    | idle => exact h
    | run hp hs =>
      obtain ⟨s, ts, log⟩ := p
      simp only at hp
      subst hp
      exact h.run hf hs
  | stop i => exact hl.elim

theorem after (s : Shop) (ls : List (Label Frame Date)) (hl : ∀ l ∈ ls, Smooth l)
    (hf : Fresh s.db (arrivals ls)) :
    Books s (arrivals ls) (Sale.after s ls) := by
  induction ls using List.reverseRecOn with
  | nil => exact .start s
  | append_singleton ls l ih =>
    have harr : arrivals (ls ++ [l]) = arrivals ls ++ (messageOf l).toList := by
      rw [arrivals, List.filterMap_append, ← arrivals]
      cases h : messageOf l <;> simp [h]
    rw [harr] at hf ⊢
    rw [Sale.after, Run.run_append]
    exact (ih (fun l' hl' => hl l' (by simp [hl'])) hf.left).exec l (hl l (by simp)) hf

end Books

/-- Who has ended has sold, or been turned away from an empty stock. -/
theorem Books.settled {s₀ : Shop} {ms : List MiaoshaMessage} {p : Sale} (h : Books s₀ ms p)
    (hq : ∀ t ∈ p.threads, t.frame = .loop []) (g : Long) :
    reducedFor (forGoods g) p.log =
      min ((s₀.db.stock (some g)).getD 0).toNat (arrivedFor (forGoods g) ms) ∧
      Db.infoSince (forGoods g) s₀.db p.store.db = reducedFor (forGoods g) p.log ∧
      Db.ordersSince (forGoods g) s₀.db p.store.db = reducedFor (forGoods g) p.log := by
  have hwait : Pool.tally (Frame.waiting (forGoods g)) p.threads = 0 :=
    Pool.tally_eq_zero.2 fun t ht => by rw [hq t ht]; rfl
  have hinsert : Pool.tally (Frame.atInsert (forGoods g)) p.threads = 0 :=
    Pool.tally_eq_zero.2 fun t ht => by rw [hq t ht]; rfl
  have hcreate : Pool.tally (Frame.inCreateOrder (forGoods g)) p.threads = 0 :=
    Pool.tally_eq_zero.2 fun t ht => by rw [hq t ht]; rfl
  have haccount := h.account (forGoods g)
  have hinfo := h.ledger.info (forGoods g)
  have horders := h.ledger.orders (forGoods g)
  have hrefused := refusedFor_le (forGoods g) p.log
  have hnone := h.refused
  have hstock := h.ledger.stock g
  have hmost := h.ledger.most g
  have hover := h.gone g
  refine ⟨?_, by omega, by omega⟩
  cases hn : s₀.db.stock (some g) with
  | none =>
    have h0 : ¬ 0 < reducedFor (forGoods g) p.log := by
      intro hpos
      obtain ⟨n, hn', -⟩ := hmost hpos
      rw [hn] at hn'
      cases hn'
    rw [Option.getD_none]
    omega
  | some n₀ =>
    rw [hn, Option.map_some] at hstock
    have hsold : 0 < reducedFor (forGoods g) p.log → (reducedFor (forGoods g) p.log : Int) ≤ n₀ := by
      intro hpos
      obtain ⟨n, hn', hle⟩ := hmost hpos
      rw [hn, Option.some.injEq] at hn'
      omega
    have hgone : 0 < turnedAwayFor (forGoods g) p.log →
      n₀ - (reducedFor (forGoods g) p.log : Int) ≤ 0 :=
      fun hpos => hover hpos _ hstock
    rw [Option.getD_some]
    omega

/-- How many of a goods are sold to the messages that come: all there is, or one to each. -/
def Db.sales (db : Db) (g : Long) (ms : List MiaoshaMessage) : Nat :=
  min (max 0 ((db.stock (some g)).getD 0)).toNat (arrivedFor (forGoods g) ms)

/-- **No lost sale.** Deliverable messages with distinct users and goods and no earlier
orders, one to a consumer, are handled in any interleaving without failures. All consumers
can be run to their end from any point. Once they have ended, none has thrown, and for
each goods `order_info` and `miaosha_order` have gained a row per unit sold and the stock
has fallen by as many, which is all there was or one for each message. A consumer that
takes several deliveries one after the other is one here for each of them. -/
theorem no_lost_sale (s : Shop) (ls : List (Label Frame Date)) (hl : ∀ l ∈ ls, Smooth l)
    (hf : Fresh s.db (arrivals ls)) :
    (∃ ls', (∀ l ∈ ls', ∃ i now, l = .run i now) ∧ Pool.Quiet consumers (Sale.after s (ls ++ ls'))) ∧
    (Pool.Quiet consumers (Sale.after s ls) →
      (∀ t ∈ (Sale.after s ls).threads, t.frame = .loop []) ∧
      ∀ g, Db.infoSince (forGoods g) s.db (Sale.after s ls).store.db = s.db.sales g (arrivals ls) ∧
        Db.ordersSince (forGoods g) s.db (Sale.after s ls).store.db = s.db.sales g (arrivals ls) ∧
        (Sale.after s ls).store.db.stock (some g) =
          (s.db.stock (some g)).map (· - (s.db.sales g (arrivals ls) : Int))) := by
  have hbooks := Books.after s ls hl hf
  constructor
  · obtain ⟨ls', hls', hquiet⟩ := Pool.exists_quiet (M := consumers) (w := Frame.left)
      (fun x s f s' f' es h => (Frame.step_spec h).left_lt) (Sale.after s ls)
    exact ⟨ls', hls', by rw [Sale.after, Run.run_append]; exact hquiet⟩
  · intro hq
    have hended : ∀ t ∈ (Sale.after s ls).threads, t.frame = .loop [] := fun t ht =>
      (hbooks.plain t ht).2.ended (hq t ht (hbooks.plain t ht).1 0)
    refine ⟨hended, ?_⟩
    intro g
    obtain ⟨hsold, hinfo, horders⟩ := hbooks.settled hended g
    have hsales : s.db.sales g (arrivals ls) = reducedFor (forGoods g) (Sale.after s ls).log := by
      rw [hsold, Db.sales]
      omega
    rw [hsales]
    exact ⟨hinfo, horders, hbooks.ledger.stock g⟩

/-- Three users for two units, their consumers taking turns. -/
def threeForTwo : List (Label Frame Date) :=
  [.spawn (.loop [⟨some { id := some 7 }, 1⟩]), .spawn (.loop [⟨some { id := some 8 }, 1⟩]),
    .spawn (.loop [⟨some { id := some 9 }, 1⟩])] ++
      (List.replicate 7 [.run 0 0, .run 1 0, .run 2 0]).flatten

theorem threeForTwo_smooth : ∀ l ∈ threeForTwo, Smooth l := by
  intro l hl
  simp only [threeForTwo, List.mem_append, List.mem_cons, List.not_mem_nil, or_false, List.mem_flatten,
    List.mem_replicate] at hl
  rcases hl with (rfl | rfl | rfl) | ⟨_, ⟨-, rfl⟩, hl⟩
  · exact ⟨_, rfl⟩
  · exact ⟨_, rfl⟩
  · exact ⟨_, rfl⟩
  · simp only [List.mem_cons, List.not_mem_nil, or_false] at hl
    rcases hl with rfl | rfl | rfl <;> trivial

theorem threeForTwo_fresh : Fresh (Shop.one 2).db (arrivals threeForTwo) where
  deliverable := by decide
  distinct := by decide
  unordered m _ u _ := by simp [Db.HasOrder, Table.Has, Shop.one]

/-- Two rows in each table and an empty stock. -/
theorem no_lost_sale_of_two :
    (Sale.after (Shop.one 2) threeForTwo).store.db.stock (some 1) = some 0 ∧
      Db.ordersSince (forGoods 1) (Shop.one 2).db
        (Sale.after (Shop.one 2) threeForTwo).store.db = 2 := by
  have hquiet : Pool.Quiet consumers (Sale.after (Shop.one 2) threeForTwo) :=
    Sale.quiet_of_frames (n := 3) rfl
  have hg := ((no_lost_sale (Shop.one 2) threeForTwo threeForTwo_smooth threeForTwo_fresh).2 hquiet).2 1
  exact ⟨hg.2.2, hg.2.1⟩

end CfsShop
