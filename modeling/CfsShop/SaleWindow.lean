/-
The window of a sale: `detail2` classifies a moment by the dates of the goods,
and the page switches its button off outside of them. `do_miaosha` does not
look at the dates.

So what keeps a sale inside its window is only when the requests are made:
`sale_window` says that a run sells inside the windows if every request of a
user who is logged in is handled between the dates of its goods.
-/
import CfsShop.GoodsController
import CfsShop.Provenance

namespace CfsShop

/-! ## Running -/

/-- `detail2` shows the goods as running: `miaoshaStatus` 1. -/
def Db.Running (db : Db) (goodsId : Long) (now : Int) : Prop :=
  ∃ page, GoodsController.rendering now db none goodsId = .ok page ∧ page.miaoshaStatus = 1

/-- The goods is in the catalogue with both dates, and the moment is between them. -/
def Db.Open (db : Db) (goodsId : Long) (now : Int) : Prop :=
  ∃ vo ∈ db.catalogue, vo.id = some goodsId ∧ ∃ startAt ∈ vo.startDate, ∃ endAt ∈ vo.endDate,
    startAt ≤ now ∧ now ≤ endAt

namespace GoodsController

theorem miaoshaStatus_eq_one {startAt endAt now : Int} :
    miaoshaStatus startAt endAt now = 1 ↔ startAt ≤ now ∧ now ≤ endAt := by
  unfold miaoshaStatus
  split
  · omega
  · split <;> omega

end GoodsController

theorem GoodsMapper.getGoodsVoByGoodsId_iff {db : Db} {g : Long} {vo : GoodsVo} :
    getGoodsVoByGoodsId db g = .ok (some vo) ↔ vo ∈ listGoodsVo db ∧ vo.id = some g := by
  have hmem : vo ∈ listGoodsVo db ∧ vo.id = some g ↔
      vo ∈ (listGoodsVo db).filter fun vo => vo.id = some g := by
    simp only [List.mem_filter, decide_eq_true_eq]
  rw [hmem, getGoodsVoByGoodsId_eq, listGoodsVo_filter, Option.mem_toList, Except.ok.injEq]

namespace Db

/-- Running is being open. -/
theorem running_iff {db : Db} {g : Long} {now : Int} : db.Running g now ↔ db.Open g now := by
  constructor
  · intro h
    obtain ⟨page, hpage, hstatus⟩ := h
    unfold GoodsController.rendering at hpage
    split at hpage
    · cases hpage
    · cases hpage
    · next vo hvo =>
      split at hpage
      · next startAt endAt hstart hend =>
        cases hpage
        obtain ⟨hmem, hid⟩ := GoodsMapper.getGoodsVoByGoodsId_iff.1 hvo
        refine ⟨vo.terms, List.mem_map_of_mem hmem, hid, startAt, hstart, endAt, hend, ?_⟩
        exact GoodsController.miaoshaStatus_eq_one.1 hstatus
      · cases hpage
  · intro h
    obtain ⟨terms, hvo, hid, startAt, hstart, endAt, hend, hopen⟩ := h
    obtain ⟨vo, hmem, rfl⟩ := List.mem_map.1 hvo
    have hfind := GoodsMapper.getGoodsVoByGoodsId_iff.2 ⟨hmem, hid⟩
    have hstart : vo.startDate = some startAt := hstart
    have hend : vo.endDate = some endAt := hend
    refine ⟨GoodsController.process none vo (GoodsController.miaoshaStatus startAt endAt now)
      (GoodsController.remainSeconds startAt endAt now), ?_, ?_⟩
    · simp only [GoodsController.rendering, hfind, hstart, hend]
    · exact GoodsController.miaoshaStatus_eq_one.2 hopen

/-- The dates stay as they are. -/
theorem running_congr {db db' : Db} (h : db'.catalogue = db.catalogue) {g : Long} {now : Int} :
    db'.Running g now ↔ db.Running g now := by
  rw [running_iff, running_iff]
  unfold Open
  rw [h]

end Db

/-! ## Sales and their time -/

/-- Every message in the queue was put there while its goods was running, and every new order
goes back to such a message. -/
structure InWindow (db₀ : Db) (p : System) : Prop where
  handed : ∀ r now m, .handed r now m true ∈ p.log → p.store.shop.db.Running m.goodsId now
  orders : ∀ i ∈ db₀.newInfos p.store.shop.db, ∃ g r now m, i.goodsId = some g ∧
    .handed r now m true ∈ p.log ∧ m.goodsId = g ∧ m.user.bind (·.id) = i.userId ∧
    p.store.shop.db.Running g now

/-- The goods a request is for, while `do_miaosha` handles it for someone who is logged in. -/
def Request.ordering : Request → Option Long
  | start sessionUser goodsId => (sessionUser.bind (·.userId)).map fun _ => goodsId
  | decrement c | putOver c _ | testOver c _ | getOrder c _ | send c _ => some c.goodsId
  | finished _ => none

def Job.ordering : Job → Option Long
  | miaosha _ _ f => f.ordering
  | _ => none

/-- Requests of users who are logged in are made while their goods is on sale: they are handled
between its dates, from the session to the answer. -/
abbrev InTime (db : Db) : System → Label Job Input → Prop :=
  Pool.Guarded fun _ x j => ∀ g ∈ j.ordering, db.Open g x.now

namespace SaleWindow

variable {md5Hex : List UInt16 → String} {x : Input} {w w' : World} {j j' : Job}
  {es log : List Happening} {db₀ : Db} {p : System}

/-- The dates are the old ones, and what was handed to RocketMQ was handed over between them. -/
structure Kept (db₀ : Db) (w : World) (log : List Happening) : Prop where
  catalogue : w.shop.db.catalogue = db₀.catalogue
  handed : ∀ r now m, .handed r now m true ∈ log → db₀.Open m.goodsId now

/-- The one step that hands a message over belongs to a request, which is in time. -/
theorem step_kept (h : Job.Step md5Hex x w j w' j' es) (ht : ∀ g ∈ j.ordering, db₀.Open g x.now)
    (hw : Kept db₀ w log) : Kept db₀ w' (log ++ es) where
  catalogue := h.catalogue.trans hw.catalogue
  handed := by
    intro r now m hm
    rcases List.mem_append.1 hm with hm | hm
    · exact hw.handed r now m hm
    · generalize true = up at hm
      cases h.reports hm with
      | @handed r k c n => exact ht c.goodsId rfl

theorem move_kept {p p' : System} {l : Label Job Input} (hm : Pool.Move (system md5Hex) p l p')
    (ht : InTime db₀ p l) (hp : Kept db₀ p.store p.log) : Kept db₀ p'.store p'.log := by
  cases hm with
  | run hth hs => exact step_kept (Job.step_spec hs) (ht.of_run hth) hp
  | _ => exact hp

/-- The orders follow the messages. -/
theorem Kept.inWindow (hp : Kept db₀ p.store p.log) (ht : Provenance.Traced db₀ p.store p.log) :
    InWindow db₀ p := by
  have hrunning : ∀ r now m, .handed r now m true ∈ p.log →
      p.store.shop.db.Running m.goodsId now := by
    intro r now m hm
    rw [Db.running_congr hp.catalogue, Db.running_iff]
    exact hp.handed r now m hm
  refine ⟨hrunning, ?_⟩
  intro i hi
  obtain ⟨u, g, hu, hg, r, now, m, hm, hmu, hmg⟩ := ht.rows.1 i hi
  refine ⟨g, r, now, m, hg, hm, hmg, by rw [hmu, hu], ?_⟩
  rw [← hmg]
  exact hrunning r now m hm

end SaleWindow

/-- **The window, from the requests.** If all along a run the requests of users who are logged in
are made between the dates of their goods, then in each of its states every message was queued, and
every order made, for goods that were running then. `do_miaosha` itself sees to none of it. -/
theorem sale_window (md5Hex : List UInt16 → String) (db : Db)
    (miaoshaUser : Table MiaoshaUser Long MiaoshaUser.id) (bloomFileter : Long → Bool)
    (ls : List (Label Job Input))
    (h : Run.Along (Pool.exec (system md5Hex)) (InTime db)
      (System.start db miaoshaUser bloomFileter) ls) :
    Run.Always (Pool.exec (system md5Hex)) (InWindow db)
      (System.start db miaoshaUser bloomFileter) ls := by
  have hstart : SaleWindow.Kept db (System.start db miaoshaUser bloomFileter).store [] :=
    ⟨rfl, fun r now m hm => by cases hm⟩
  have hkept := Run.Along.always (I := fun p : System => Pool.Each (Provenance.Traced db)
      Provenance.Fits p ∧ SaleWindow.Kept db p.store p.log) ?_
    ⟨Provenance.start_traced db miaoshaUser bloomFileter, hstart⟩ h
  · exact hkept.imp fun p hp => hp.2.inWindow hp.1.1
  · intro p l hp ht
    have hm := Pool.exec_move (system md5Hex) p l
    exact ⟨Provenance.move_traced hm hp.1, SaleWindow.move_kept hm ht hp.2⟩

/-- One unit of goods 1, on sale for the first second. -/
def OneSale.dated : Db where
  goods := (Shop.one 1).db.goods
  miaoshaGoods := ⟨[
    { goodsId := some 1, stockCount := some 1, startDate := some 0, endDate := some 1000 }], by simp⟩
  orderInfo := (Shop.one 1).db.orderInfo
  miaoshaOrder := (Shop.one 1).db.miaoshaOrder

instance (db : Db) (g : Long) (now : Int) : Decidable (db.Open g now) :=
  inferInstanceAs (Decidable (∃ vo ∈ db.catalogue, vo.id = some g ∧ ∃ startAt ∈ vo.startDate,
    ∃ endAt ∈ vo.endDate, startAt ≤ now ∧ now ≤ endAt))

/-- A user orders after half a second, somebody without a session after two, and the first gets
the unit. -/
def OneSale.inTime : List (Label Job Input) :=
  startsUp 0 0 ++ logsIn 1 ++ buys 2 500 ++
    .spawn (.queued ⟨0, none, .doMiaosha 1⟩) :: List.replicate 5 (.run 3 { now := 2000 }) ++ consumes 4

theorem sale_window_in_time :
    Run.Always (Pool.exec (system OneSale.md5Hex)) (InWindow OneSale.dated)
        (OneSale.start OneSale.dated) OneSale.inTime ∧
      let p := System.after OneSale.md5Hex (OneSale.start OneSale.dated) OneSale.inTime
      .handed OneSale.order 500 ⟨some OneSale.user, 1⟩ true ∈ p.log ∧
        (OneSale.dated.newInfos p.store.shop.db).map (·.goodsId) = [some 1] := by
  have hwindow : Run.Always (Pool.exec (system OneSale.md5Hex)) (InWindow OneSale.dated)
      (OneSale.start OneSale.dated) OneSale.inTime :=
    sale_window _ _ _ _ _ (by decide +kernel)
  exact ⟨hwindow, by decide +kernel, by decide +kernel⟩

/-- A user orders after two seconds, and gets it. -/
theorem sold_after_the_end :
    let p := System.after OneSale.md5Hex (OneSale.start OneSale.dated)
      (OneSale.startsUp 0 0 ++ OneSale.logsIn 1 ++ OneSale.buys 2 2000 ++ OneSale.consumes 3)
    .handed OneSale.order 2000 ⟨some OneSale.user, 1⟩ true ∈ p.log ∧
      (OneSale.dated.newInfos p.store.shop.db).map (·.goodsId) = [some 1] ∧
      ¬ p.store.shop.db.Running 1 2000 ∧ ¬ InWindow OneSale.dated p := by
  intro p
  have hhanded : .handed OneSale.order 2000 ⟨some OneSale.user, 1⟩ true ∈ p.log := by decide +kernel
  have hpast : ¬ p.store.shop.db.Running 1 2000 := by
    have hcatalogue : p.store.shop.db.catalogue = OneSale.dated.catalogue := by decide +kernel
    rw [Db.running_congr hcatalogue, Db.running_iff]
    intro h
    obtain ⟨vo, hvo, -, startAt, -, endAt, hend, -, hle⟩ := h
    have hend' : vo.endDate = some 1000 := by
      rw [show vo = _ from List.mem_singleton.1 hvo]
      rfl
    rw [Option.mem_def, hend', Option.some.injEq] at hend
    subst hend
    exact absurd hle (by decide)
  refine ⟨hhanded, by decide +kernel, hpast, ?_⟩
  intro h
  exact hpast (h.handed _ _ _ hhanded)

end CfsShop
