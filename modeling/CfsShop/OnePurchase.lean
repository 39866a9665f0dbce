/-
One purchase per user and goods: when it holds.

The "already bought" check, the stock update and the two inserts are separate
statements, and the only thing the database itself enforces is the unique key
of `miaosha_order`, met last. Two deliveries of one message that both pass the
check before either has written therefore take two units and write two
`order_info` rows; the key then rejects the second `miaosha_order` row, with
nothing to undo the rest (`duplicates_buy_twice`).

`one_purchase_iff` says this is the only way: a run keeps to one purchase per
pair exactly when no unit is taken for a pair that has its `order_info` row or
has another consumer about to write it.
-/
import CfsShop.Ledger

namespace CfsShop

namespace Db

def infoFor (P : Pick) (db : Db) : Nat := db.orderInfo.rows.countP fun o => P o.userId o.goodsId

def ordersFor (P : Pick) (db : Db) : Nat := db.miaoshaOrder.rows.countP fun o => P o.userId o.goodsId

/-- A database to start from: one `order_info` row per pair at most, and its
`miaosha_order` row with it. -/
structure Consistent (db : Db) : Prop where
  once : ∀ u g, infoFor (forPair u g) db ≤ 1
  ordered : ∀ u g, 0 < infoFor (forPair u g) db → db.HasOrder u g

theorem Extends.infoFor {db₀ db : Db} (h : db₀.Extends db) (P : Pick) :
    db.infoFor P = db₀.infoFor P + infoSince P db₀ db := by
  obtain ⟨new, hnew⟩ := h.info
  simp [Db.infoFor, infoSince, ← hnew]

/-- The unique key at work. -/
theorem ordersFor_pair_le (db : Db) (u g : Long) : db.ordersFor (forPair u g) ≤ 1 := by
  have hcount : db.ordersFor (forPair u g) = (db.miaoshaOrder.select (u, g)).length := by
    rw [ordersFor, List.countP_eq_length_filter, Table.select]
    congr 1
    apply List.filter_congr
    intro o _
    simp only [uidGid_eq_some, forPair]
  rw [hcount, Table.select_eq]
  cases db.miaoshaOrder.find? (u, g) <;> simp

end Db

/-- The pair for which the next step takes a unit: a consumer at `reduceStock`, with
something in stock. -/
def takes (p : Sale) : Label Frame Date → Option (Long × Long)
  | .run i _ =>
    match p.threads[i]? with
    | some ⟨.reduceStock l, true⟩ =>
      match p.store.db.stock (some l.goodsId) with
      | some n => if 0 < n then some (l.userId, l.goodsId) else none
      | none => none
    | _ => none
  | _ => none

/-- At most one row in each table, and one unit of stock, per user and goods. -/
def OnePurchase (p : Sale) : Prop :=
  ∀ u g, p.store.db.infoFor (forPair u g) ≤ 1 ∧ p.store.db.ordersFor (forPair u g) ≤ 1 ∧
    reducedFor (forPair u g) p.log ≤ 1

/-- A unit is taken for a pair only while it has no `order_info` row and no consumer,
moving or dead, stands between its own unit and that row. -/
def NoOverlap (p : Sale) (l : Label Frame Date) : Prop :=
  ∀ k ∈ takes p l, p.store.db.infoFor (forPair k.1 k.2) = 0 ∧
    Pool.tally (Frame.atInsert (forPair k.1 k.2)) p.threads = 0

instance (p : Sale) (l : Label Frame Date) : Decidable (NoOverlap p l) :=
  inferInstanceAs (Decidable (∀ k ∈ takes p l, p.store.db.infoFor (forPair k.1 k.2) = 0 ∧
    Pool.tally (Frame.atInsert (forPair k.1 k.2)) p.threads = 0))

theorem takes_eq_some {p : Sale} {l : Label Frame Date} {u g : Long} (h : takes p l = some (u, g)) :
    ∃ i now lo n, l = .run i now ∧ p.threads[i]? = some ⟨.reduceStock lo, true⟩ ∧
      p.store.db.stock (some lo.goodsId) = some n ∧ 0 < n ∧ lo.userId = u ∧ lo.goodsId = g := by
  cases l with
  | run i now =>
    simp only [takes] at h
    split at h
    · next lo ht =>
      split at h
      · next n hn =>
        split at h
        · next hpos =>
          simp only [Option.some.injEq, Prod.mk.injEq] at h
          exact ⟨i, now, lo, n, rfl, ht, hn, hpos, h.1, h.2⟩
        · cases h
      · cases h
    · cases h
  | spawn t => simp [takes] at h
  | stop i => simp [takes] at h

/-- The history records exactly the units `takes` announces. -/
theorem reducedFor_exec (P : Pick) (p : Sale) (l : Label Frame Date) :
    reducedFor P (p.exec consumers l).log =
      reducedFor P p.log + match takes p l with
        | some (u, g) => (P (some u) (some g)).toNat
        | none => 0 := by
  cases ht : takes p l with
  | some k =>
    obtain ⟨u, g⟩ := k
    obtain ⟨i, now, lo, n, rfl, hi, hn, hpos, rfl, rfl⟩ := takes_eq_some ht
    simp only [Pool.exec, hi, consumers, Frame.step_reduceStock now hn hpos, reducedFor_append,
      reducedFor_reduced]
  | none =>
    rw [Nat.add_zero]
    generalize hp' : p.exec consumers l = p'
    have hm := Pool.exec_move consumers p l
    rw [hp'] at hm
    cases hm with
    | @run pre f post x s f' es hth hs =>
      -- A statement that takes a unit would have been announced.
      have hes : reducedFor P es = 0 := by
        cases Frame.step_spec hs with
        | @reduced n lo hn hpos =>
          have hi : p.threads[pre.length]? = some ⟨.reduceStock lo, true⟩ := by simp [hth]
          simp [takes, hi, hn, hpos] at ht
        | _ => simp
      simp [hes]
    | _ => rfl

/-! ## What the check before the update is good for -/

/-- A pair with an order from before the sale is turned away by the check, so no unit
is ever taken for it. -/
structure Checked (s₀ : Shop) (p : Sale) : Prop where
  ledger : Ledger s₀ p
  frames : ∀ t ∈ p.threads, ∀ l, t.frame = .reduceStock l → ¬ s₀.db.HasOrder l.userId l.goodsId
  never : ∀ u g, s₀.db.HasOrder u g → reducedFor (forPair u g) p.log = 0

theorem Checked.start (s : Shop) : Checked s (Sale.start s) where
  ledger := .start s
  frames := by simp [Sale.start]
  never u g _ := rfl

/-- A consumer comes to `reduceStock` only through a check that found no order. -/
theorem Frame.Step.checked {now : Date} {s s' : Shop} {f f' : Frame} {es : List Event} {db₀ : Db}
    (h : Frame.Step now s f s' f' es) (hx : db₀.Extends s.db) (l : Locals) (hl : f' = .reduceStock l) :
    ¬ db₀.HasOrder l.userId l.goodsId := by
  cases h with
  | @notYet l' hno =>
    cases hl
    exact fun ho => hno (hx.hasOrder_iff.2 (.inl ho))
  | _ => cases hl

theorem Checked.move {s₀ : Shop} (p : Sale) (l : Label Frame Date) (p' : Sale) (h : Checked s₀ p)
    (hm : Pool.Move consumers p l p') : Checked s₀ p' := by
  refine ⟨h.ledger.move _ l _ hm, ?_, ?_⟩
  · refine hm.threads h.frames ?_ ?_ ?_
    · intro f hf lo hlo
      simp only at hlo
      subst hlo
      simp [consumers] at hf
    · intro now f s f' es _ hs lo hlo
      exact (Frame.step_spec hs).checked h.ledger.grows lo hlo
    · intro i t _ ht lo hlo
      exact h.frames t (List.mem_of_getElem? ht) lo hlo
  · intro u g ho
    cases hm with
    | @run pre f post x s f' es hp hs =>
      rw [reducedFor_append, h.never u g ho, Nat.zero_add]
      cases Frame.step_spec hs with
      | @reduced n lo hn hpos =>
        have hno := h.frames ⟨.reduceStock lo, true⟩ (by simp [hp]) lo rfl
        rw [reducedFor_reduced]
        cases hpair : forPair u g (some lo.userId) (some lo.goodsId) with
        | false => rfl
        | true =>
          rw [forPair_iff, Prod.mk.injEq] at hpair
          exact absurd (hpair.1 ▸ hpair.2 ▸ ho) hno
      | _ => simp
    | _ => exact h.never u g ho

/-- With consistent books to start from, the units taken decide. -/
theorem Checked.onePurchase_iff {s₀ : Shop} {p : Sale} (h : Checked s₀ p) (hc : s₀.db.Consistent) :
    OnePurchase p ↔ ∀ u g, reducedFor (forPair u g) p.log ≤ 1 := by
  refine ⟨fun hp u g => (hp u g).2.2, fun hr u g => ⟨?_, p.store.db.ordersFor_pair_le u g, hr u g⟩⟩
  have hinfo := h.ledger.grows.infoFor (forPair u g)
  have hbooks := h.ledger.info (forPair u g)
  have hone := hr u g
  rcases Nat.eq_zero_or_pos (s₀.db.infoFor (forPair u g)) with h0 | hpos
  · omega
  · have := h.never u g (hc.ordered u g hpos)
    have := hc.once u g
    omega

/-- Under `Checked`, one step keeps to one unit per pair exactly when it does not overlap. -/
theorem Checked.step_iff {s₀ : Shop} {p : Sale} (h : Checked s₀ p) (hc : s₀.db.Consistent)
    (l : Label Frame Date) (hone : ∀ u g, reducedFor (forPair u g) p.log ≤ 1) :
    (∀ u g, reducedFor (forPair u g) (p.exec consumers l).log ≤ 1) ↔ NoOverlap p l := by
  cases ht : takes p l with
  | none =>
    refine iff_of_true ?_ (fun k hk => by rw [ht] at hk; cases hk)
    intro u g
    rw [reducedFor_exec, ht]
    exact hone u g
  | some k =>
    obtain ⟨u, g⟩ := k
    obtain ⟨i, now, lo, n, rfl, hi, -, -, rfl, rfl⟩ := takes_eq_some ht
    -- No order at the start, hence no `order_info` row either: all rows of the pair are new.
    have hno := h.frames _ (List.mem_of_getElem? hi) lo rfl
    have h0 : s₀.db.infoFor (forPair lo.userId lo.goodsId) = 0 := by
      by_contra hne
      exact hno (hc.ordered _ _ (by omega))
    have hinfo := h.ledger.grows.infoFor (forPair lo.userId lo.goodsId)
    have hbooks := h.ledger.info (forPair lo.userId lo.goodsId)
    constructor
    · intro hafter k hk
      rw [ht, Option.mem_some_iff] at hk
      subst hk
      have := hafter lo.userId lo.goodsId
      rw [reducedFor_exec, ht] at this
      simp only [forPair_self, Bool.toNat_true] at this ⊢
      omega
    · intro hov u g
      have hfree := hov _ ht
      simp only at hfree
      rw [reducedFor_exec, ht]
      cases hpair : forPair u g (some lo.userId) (some lo.goodsId) with
      | false =>
        simp only [hpair, Bool.toNat_false, Nat.add_zero]
        exact hone u g
      | true =>
        simp only [hpair, Bool.toNat_true]
        rw [forPair_iff, Prod.mk.injEq] at hpair
        obtain ⟨rfl, rfl⟩ := hpair
        omega

/-- **One purchase per user and goods, exactly when.** From a consistent database, a
run of any consumers has at most one `order_info` row, one `miaosha_order` row and
one unit of stock per user and goods in each of its states if and only if no step
of it takes a unit for a pair whose purchase is already written or under way. -/
theorem one_purchase_iff (s : Shop) (hc : s.db.Consistent) (ls : List (Label Frame Date)) :
    Run.Always (Pool.exec consumers) OnePurchase (Sale.start s) ls ↔
      Run.Along (Pool.exec consumers) NoOverlap (Sale.start s) ls := by
  refine Run.always_iff_along (I := Checked s)
    (fun p l h => h.move p l _ (Pool.exec_move consumers p l)) ?_ (.start s) ?_
  · intro p l h hp
    rw [(h.move p l _ (Pool.exec_move consumers p l)).onePurchase_iff hc]
    exact h.step_iff hc l ((h.onePurchase_iff hc).1 hp)
  · exact ((Checked.start s).onePurchase_iff hc).2 fun u g => by simp [Sale.start]

theorem Shop.one_consistent (n : Int) : (Shop.one n).db.Consistent where
  once _ _ := Nat.zero_le 1
  ordered _ _ h := absurd h (Nat.lt_irrefl 0)

/-- A message of user 7 for goods 1, delivered twice, the two consumers moving in step. -/
def deliveredTwice : List (Label Frame Date) :=
  let m : MiaoshaMessage := ⟨some { id := some 7 }, 1⟩
  [.spawn (.loop [m]), .spawn (.loop [m])] ++ (List.replicate 6 [.run 0 0, .run 1 0]).flatten

/-- Both deliveries pass the check before either writes: two units, two `order_info` rows,
and a refused `miaosha_order` row that undoes neither. -/
theorem duplicates_buy_twice :
    (Shop.one 2).db.Consistent ∧
      (Sale.after (Shop.one 2) deliveredTwice).store.db.infoFor (forPair 7 1) = 2 ∧
      reducedFor (forPair 7 1) (Sale.after (Shop.one 2) deliveredTwice).log = 2 ∧
      refusedFor (forPair 7 1) (Sale.after (Shop.one 2) deliveredTwice).log = 1 ∧
      ¬ Run.Always (Pool.exec consumers) OnePurchase (Sale.start (Shop.one 2)) deliveredTwice := by
  have hinfo : (Sale.after (Shop.one 2) deliveredTwice).store.db.infoFor (forPair 7 1) = 2 := by decide
  refine ⟨Shop.one_consistent 2, hinfo, by decide, by decide, ?_⟩
  intro h
  have hone := (h.last 7 1).1
  rw [Sale.after] at hinfo
  omega

/-- The same message delivered twice, one delivery after the other. -/
theorem one_purchase_in_turn :
    Run.Always (Pool.exec consumers) OnePurchase (Sale.start (Shop.one 2))
      ([.spawn (.loop [⟨some { id := some 7 }, 1⟩]), .spawn (.loop [⟨some { id := some 7 }, 1⟩])] ++
        List.replicate 7 (.run 0 0) ++ List.replicate 7 (.run 1 0)) :=
  (one_purchase_iff (Shop.one 2) (Shop.one_consistent 2) _).2 (by decide)

end CfsShop
