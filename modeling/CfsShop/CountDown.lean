/-
`goods_detail.html`: what the script of the page does with `remainSeconds`.

The one number tells the script both the phase of the sale and how long it is
to wait. `detail2` gets it by dividing milliseconds by 1000, so what is lost
is up to a second, and by a cast to `int`; `agrees_iff` says for which times
the page and `miaoshaStatus` still agree, and the button waits for the start.
-/
import CfsShop.GoodsController

namespace CfsShop

namespace GoodsDetail

/-- What is in the cell `miaoshaTip`. -/
inductive Tip
  /-- "秒杀倒计时：", the span `countDown`, "秒" -/
  | countDown (seconds : Int)
  /-- "秒杀进行中" -/
  | running
  /-- "秒杀已结束", "秒杀已经结束" -/
  | ended
  deriving DecidableEq, Repr

/-- The page in a browser, as far as the script reads or writes it. -/
structure View where
  /-- The hidden input. -/
  remainSeconds : Int
  miaoshaTip : Option Tip
  /-- `buyButton` is disabled. -/
  disabled : Bool
  /-- A `setTimeout` of 1000 ms is pending. -/
  timeout : Bool
  deriving DecidableEq, Repr

/-- The three `th:if` of the template. -/
def served (html : Page) : Option Tip :=
  if html.miaoshaStatus = 0 then some (.countDown html.remainSeconds)
  else if html.miaoshaStatus = 1 then some .running
  else if html.miaoshaStatus = 2 then some .ended
  else none

def countDown (v : View) : View :=
  if v.remainSeconds > 0 then { v with disabled := true, timeout := true }
  else if v.remainSeconds = 0 then
    { v with disabled := false, miaoshaTip := some .running, timeout := false }
  else { v with disabled := true, miaoshaTip := some .ended, timeout := false }

/-- `$("#countDown").text(...)`, where that span is there. -/
def setText (seconds : Int) : Option Tip → Option Tip
  | some (.countDown _) => some (.countDown seconds)
  | tip => tip

/-- 1000 ms pass: what is pending is done. -/
def tick (v : View) : View :=
  if v.timeout then
    countDown
      { v with
        miaoshaTip := setText (v.remainSeconds - 1) v.miaoshaTip
        remainSeconds := v.remainSeconds - 1
        timeout := false }
  else v

/-- The page has been loaded. -/
def load (html : Page) : View :=
  countDown
    { remainSeconds := html.remainSeconds, miaoshaTip := served html, disabled := false, timeout := false }

/-- And `k` seconds have passed. -/
def after (html : Page) (k : Nat) : View := tick^[k] (load html)

/-! ## The phase and the button -/

inductive Phase
  | notStarted
  | running
  | ended
  deriving DecidableEq, Repr

/-- How the server numbers them. -/
def Phase.status : Phase → Int
  | notStarted => 0
  | running => 1
  | ended => 2

/-- What the page shows: it waits, or offers the button, or neither. -/
def shown (v : View) : Phase :=
  if v.timeout then .notStarted else if v.disabled then .ended else .running

/-- The page of a goods on sale from `startAt` to `endAt`, as `detail2` makes it `now`. -/
def page (user : Option MiaoshaUser) (goods : GoodsVo) (startAt endAt now : Int64) : Page :=
  GoodsController.process user goods
    (GoodsController.miaoshaStatus startAt.toInt endAt.toInt now.toInt)
    (GoodsController.remainSeconds startAt.toInt endAt.toInt now.toInt)

/-- Loaded at once, the page shows the phase the server saw, and with a tick every 1000 ms it never
offers the button before the start. -/
structure Agrees (html : Page) (startAt now : Int64) : Prop where
  phase : (shown (load html)).status = html.miaoshaStatus
  waits : ∀ k : Nat, (after html k).disabled = false → startAt.toInt ≤ now.toInt + 1000 * k

variable {html : Page}

theorem shown_load (html : Page) :
    shown (load html) = if 0 < html.remainSeconds then .notStarted
      else if html.remainSeconds = 0 then .running else .ended := by
  unfold load countDown shown
  by_cases hpos : 0 < html.remainSeconds
  · simp [hpos]
  · by_cases hzero : html.remainSeconds = 0
    · simp [hzero]
    · simp [hpos, hzero]

theorem after_succ (html : Page) (k : Nat) : after html (k + 1) = tick (after html k) :=
  Function.iterate_succ_apply' tick k _

/-- While there are seconds left the button is disabled and the timer pending. -/
theorem after_waiting {k : Nat} (hk : (k : Int) < html.remainSeconds) :
    (after html k).remainSeconds = html.remainSeconds - k ∧ (after html k).disabled = true ∧
      (after html k).timeout = true := by
  induction k with
  | zero =>
    have hpos : 0 < html.remainSeconds := by simpa using hk
    simp [after, load, countDown, hpos]
  | succ k ih =>
    obtain ⟨hr, -, ht⟩ := ih (by omega)
    have hpos : 0 < html.remainSeconds - k - 1 := by omega
    rw [after_succ, tick, if_pos ht, countDown]
    simp only [hr, gt_iff_lt, hpos, if_true, and_self, and_true]
    omega

/-- Afterwards nothing is pending, and the button is offered unless the sale was over. -/
theorem after_settled {k : Nat} (hk : ¬ (k : Int) < html.remainSeconds) :
    (after html k).timeout = false ∧ ((after html k).disabled = false ↔ 0 ≤ html.remainSeconds) := by
  induction k with
  | zero =>
    have hpos : ¬ 0 < html.remainSeconds := by simpa using hk
    by_cases hzero : html.remainSeconds = 0
    · simp [after, load, countDown, hzero]
    · have hneg : ¬ 0 ≤ html.remainSeconds := by omega
      simp [after, load, countDown, hpos, hzero, hneg]
  | succ k ih =>
    rw [after_succ]
    by_cases hlast : (k : Int) < html.remainSeconds
    · -- The last tick: no second is left after it.
      obtain ⟨hr, -, ht⟩ := after_waiting hlast
      have hzero : html.remainSeconds - k - 1 = 0 := by omega
      have hnn : 0 ≤ html.remainSeconds := by omega
      rw [tick, if_pos ht, countDown]
      simp [hr, hzero, hnn]
    · obtain ⟨ht, hd⟩ := ih hlast
      rw [tick, if_neg (by simp [ht])]
      exact ⟨ht, hd⟩

theorem disabled_iff (html : Page) (k : Nat) :
    (after html k).disabled = false ↔ 0 ≤ html.remainSeconds ∧ html.remainSeconds ≤ k := by
  by_cases hk : (k : Int) < html.remainSeconds
  · rw [(after_waiting hk).2.1]
    simp only [Bool.true_eq_false, false_iff]
    omega
  · rw [(after_settled hk).2]
    omega

/-! ## The number in between -/

theorem remainSeconds_lt (startAt endAt now : Int) :
    GoodsController.remainSeconds startAt endAt now < 2 ^ 31 := by
  unfold GoodsController.remainSeconds GoodsController.toInt
  split
  · exact Int.bmod_lt (by decide)
  · split <;> omega

/-- A start less than 2^31 seconds away is told in whole seconds. -/
theorem remainSeconds_eq {startAt endAt now : Int} (h : now < startAt)
    (hfar : startAt - now < 1000 * 2 ^ 31) :
    GoodsController.remainSeconds startAt endAt now = (startAt - now) / 1000 := by
  have hlong : GoodsController.toLong (startAt - now) = startAt - now :=
    Int.bmod_eq_of_le (by omega) (by omega)
  have hint : GoodsController.toInt ((startAt - now) / 1000) = (startAt - now) / 1000 :=
    Int.bmod_eq_of_le (by omega) (by omega)
  rw [GoodsController.remainSeconds, if_pos h, hlong, Int.tdiv_eq_ediv_of_nonneg (by omega), hint]

/-- Once the sale has started the number is 0, and -1 when it is over. -/
theorem agrees_of_started (user : Option MiaoshaUser) (goods : GoodsVo) {startAt now : Int64}
    (endAt : Int64) (h : startAt.toInt ≤ now.toInt) :
    Agrees (page user goods startAt endAt now) startAt now := by
  have hnot : ¬ now.toInt < startAt.toInt := by omega
  by_cases hend : now.toInt > endAt.toInt
  · have hr : (page user goods startAt endAt now).remainSeconds = -1 := by
      simp [page, GoodsController.process, GoodsController.remainSeconds, hnot, hend]
    have hst : (page user goods startAt endAt now).miaoshaStatus = 2 := by
      simp [page, GoodsController.process, GoodsController.miaoshaStatus, hnot, hend]
    refine ⟨by rw [shown_load, hr, hst]; rfl, ?_⟩
    intro k hk
    rw [disabled_iff, hr] at hk
    omega
  · have hr : (page user goods startAt endAt now).remainSeconds = 0 := by
      simp [page, GoodsController.process, GoodsController.remainSeconds, hnot, hend]
    have hst : (page user goods startAt endAt now).miaoshaStatus = 1 := by
      simp [page, GoodsController.process, GoodsController.miaoshaStatus, hnot, hend]
    refine ⟨by rw [shown_load, hr, hst]; rfl, ?_⟩
    intro k _
    omega

/-- Before the start the page agrees if the seconds it counts, which it must have, take it there. -/
theorem agrees_of_waiting (user : Option MiaoshaUser) (goods : GoodsVo) {startAt now : Int64}
    (endAt : Int64) (h : now.toInt < startAt.toInt) :
    Agrees (page user goods startAt endAt now) startAt now ↔
      startAt.toInt - now.toInt ≤
        1000 * GoodsController.remainSeconds startAt.toInt endAt.toInt now.toInt := by
  have hst : (page user goods startAt endAt now).miaoshaStatus = 0 := by
    simp [page, GoodsController.process, GoodsController.miaoshaStatus, h]
  have hr : (page user goods startAt endAt now).remainSeconds =
      GoodsController.remainSeconds startAt.toInt endAt.toInt now.toInt := rfl
  generalize GoodsController.remainSeconds startAt.toInt endAt.toInt now.toInt = r at hr ⊢
  constructor
  · intro ha
    have hpos : 0 < r := by
      by_contra hle
      have hphase := ha.phase
      rw [shown_load, hr, hst, if_neg hle] at hphase
      split at hphase <;> cases hphase
    have hk := ha.waits r.toNat ((disabled_iff _ _).2 (by rw [hr]; omega))
    omega
  · intro hle
    refine ⟨?_, ?_⟩
    · rw [shown_load, hr, hst, if_pos (by omega)]
      rfl
    · intro k hk
      rw [disabled_iff, hr] at hk
      omega

/-- The page agrees with the server, and its button waits for the start, exactly where the sale has
started, or starts in a whole number of seconds below 2^31. -/
theorem agrees_iff (user : Option MiaoshaUser) (goods : GoodsVo) (startAt endAt now : Int64) :
    Agrees (page user goods startAt endAt now) startAt now ↔
      startAt ≤ now ∨ (1000 ∣ startAt.toInt - now.toInt ∧
        startAt.toInt - now.toInt < 1000 * 2 ^ 31) := by
  rw [Int64.le_iff_toInt_le]
  by_cases hstarted : startAt.toInt ≤ now.toInt
  · exact iff_of_true (agrees_of_started user goods endAt hstarted) (.inl hstarted)
  · have hlt : now.toInt < startAt.toInt := by omega
    have hmost := remainSeconds_lt startAt.toInt endAt.toInt now.toInt
    rw [agrees_of_waiting user goods endAt hlt]
    constructor
    · intro hle
      have hfar : startAt.toInt - now.toInt < 1000 * 2 ^ 31 := by omega
      rw [remainSeconds_eq hlt hfar] at hle
      exact .inr ⟨by omega, hfar⟩
    · intro hcond
      obtain ⟨hdvd, hfar⟩ := hcond.resolve_left hstarted
      rw [remainSeconds_eq hlt hfar]
      omega

/-- An iphone, on sale for a second. -/
def soon : GoodsVo where
  id := some 1
  goodsName := some "iphoneX"
  goodsImg := none
  goodsPrice := none
  stockCount := some 1
  startDate := some 5000
  endDate := some 6000
  miaoshaPrice := some 1

/-- Half a second before the start the page shows a sale that runs, and offers the button. -/
theorem not_agrees_half_second :
    (5000 : Int64) ≤ 6000 ∧ (page none soon 5000 6000 4500).miaoshaStatus = 0 ∧
      (load (page none soon 5000 6000 4500)).miaoshaTip = some .running ∧
      (load (page none soon 5000 6000 4500)).disabled = false ∧
      ¬ Agrees (page none soon 5000 6000 4500) 5000 4500 := by
  refine ⟨by decide, by decide, by decide, by decide, ?_⟩
  intro h
  exact absurd h.phase (by decide)

end GoodsDetail

end CfsShop
