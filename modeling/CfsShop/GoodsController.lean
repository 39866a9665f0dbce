/-
`GoodsController.detail2`: the page of one goods, which is kept in Redis for
three seconds.

The page is kept under one name, `goods_detail`, whatever goods and whatever
user it was made for. So who asks within three seconds of somebody else gets
the page the other asked for. `right_iff` says when every page served shows
the goods asked for, to the user who asked; `served_as_asked` says when, beyond
that, nobody can tell what others asked for before.
-/
import CfsShop.OrderService
import CfsShop.Lib.Run
import Mathlib.Algebra.Order.Ring.Int

namespace CfsShop

namespace Info

def staticTemplate : String := "staticTemplate"

end Info

/-- The page, by what fills the holes of the template. -/
structure Page where
  /-- `user eq null`: the line that asks to log in. -/
  noUser : Bool
  goodsName : Option String
  goodsImg : Option String
  startDate : Option Date
  remainSeconds : Int
  miaoshaStatus : Int
  /-- `goods.id`: what the button of the page orders. -/
  goodsId : Option Long
  goodsPrice : Option Price
  miaoshaPrice : Option Price
  stockCount : Option Int
  deriving DecidableEq, Repr

/-- A value of an `RMapCache`, and when it is dropped. -/
structure Entry where
  html : Page
  expires : Int
  deriving DecidableEq

/-- An `RMapCache<String, String>`. -/
abbrev RMapCache := String → Option Entry

namespace RMapCache

def get (c : RMapCache) (now : Int) (key : String) : Option Page :=
  match c key with
  | some e => if now < e.expires then some e.html else none
  | none => none

/-- `put` with a time to live. -/
def put (c : RMapCache) (now : Int) (key : String) (html : Page) (millis : Int) : RMapCache :=
  Function.update c key (some ⟨html, now + millis⟩)

theorem get_eq_some {c : RMapCache} {now : Int} {key : String} {html : Page} :
    c.get now key = some html ↔ ∃ e, c key = some e ∧ now < e.expires ∧ e.html = html := by
  unfold get
  cases c key with
  | none => simp
  | some e =>
    by_cases h : now < e.expires
    · simp [h]
    · simp [h]

@[simp] theorem put_self (c : RMapCache) (now : Int) (key : String) (html : Page) (millis : Int) :
    c.put now key html millis key = some ⟨html, now + millis⟩ := by simp [put]

end RMapCache

/-- What the page requests share: the clock, the tables, and the map `staticTemplate`. -/
structure DetailSite where
  now : Int
  db : Db
  staticTemplate : RMapCache

namespace GoodsController

/-- A cast to `int`. -/
def toInt (n : Int) : Int := n.bmod (2 ^ 32)

/-- What `long` arithmetic leaves of a result. -/
def toLong (n : Int) : Int := n.bmod (2 ^ 64)

/-- Not yet, running, or past. -/
def miaoshaStatus (startAt endAt now : Int) : Int :=
  if now < startAt then 0 else if now > endAt then 2 else 1

def remainSeconds (startAt endAt now : Int) : Int :=
  if now < startAt then toInt ((toLong (startAt - now)).tdiv 1000)
  else if now > endAt then -1
  else 0

/-- The template engine on `goods_detail`. -/
def process (user : Option MiaoshaUser) (goods : GoodsVo) (miaoshaStatus remainSeconds : Int) :
    Page where
  noUser := user.isNone
  goodsName := goods.goodsName
  goodsImg := goods.goodsImg
  startDate := goods.startDate
  remainSeconds
  miaoshaStatus
  goodsId := goods.id
  goodsPrice := goods.goodsPrice
  miaoshaPrice := goods.miaoshaPrice
  stockCount := goods.stockCount

def cacheName : String := "goods_detail"

/-- `put` for three seconds. -/
def keep (html : Page) (s : DetailSite) : DetailSite :=
  { s with staticTemplate := s.staticTemplate.put s.now cacheName html 3000 }

@[simp] theorem now_keep (html : Page) (s : DetailSite) : (keep html s).now = s.now := rfl

@[simp] theorem entry_keep (html : Page) (s : DetailSite) :
    (keep html s).staticTemplate cacheName = some ⟨html, s.now + 3000⟩ := by simp [keep]

def detail2 (user : Option MiaoshaUser) (goodsId : Long) : Prog Ex DetailSite Page := do
  let site ← get
  match site.staticTemplate.get site.now cacheName with
  | some html => return html
  | none =>
    match GoodsMapper.getGoodsVoByGoodsId site.db goodsId with
    | .error e => throw e
    | .ok found =>
      let goodsVo ← nonNull found
      let startAt ← nonNull goodsVo.startDate
      let endAt ← nonNull goodsVo.endDate
      let html := process user goodsVo (miaoshaStatus startAt endAt site.now)
        (remainSeconds startAt endAt site.now)
      modify (keep html)
      return html

/-! ## What a request gets -/

/-- The rendering for a user of a goods' row, at one moment. A goods without a row, or without
its dates, has none. -/
def rendering (now : Int) (db : Db) (user : Option MiaoshaUser) (goodsId : Long) :
    Except Ex Page :=
  match GoodsMapper.getGoodsVoByGoodsId db goodsId with
  | .error e => .error e
  | .ok none => .error .nullPointer
  | .ok (some goodsVo) =>
    match goodsVo.startDate, goodsVo.endDate with
    | some startAt, some endAt =>
      .ok (process user goodsVo (miaoshaStatus startAt endAt now) (remainSeconds startAt endAt now))
    | _, _ => .error .nullPointer

/-- A page that is kept is handed out; otherwise one is made, and kept. -/
theorem exec_detail2 (user : Option MiaoshaUser) (goodsId : Long) (s : DetailSite) :
    (detail2 user goodsId).exec s =
      match s.staticTemplate.get s.now cacheName with
      | some html => (.ok html, s)
      | none =>
        match rendering s.now s.db user goodsId with
        | .ok html => (.ok html, keep html s)
        | .error e => (.error e, s) := by
  simp only [detail2, rendering, Prog.exec_bind, Prog.exec_get]
  cases s.staticTemplate.get s.now cacheName with
  | some html => rfl
  | none =>
    rcases GoodsMapper.getGoodsVoByGoodsId s.db goodsId with e | _ | vo
    · rfl
    · rfl
    · cases hs : vo.startDate with
      | none => simp [hs, Prog.exec_bind]
      | some startAt =>
        cases he : vo.endDate with
        | none => simp [hs, he, Prog.exec_bind]
        | some endAt =>
          simp only [exec_nonNull_some, Prog.exec_bind, hs, he]
          rfl

/-- The page names its goods, and tells a user from none. -/
theorem holes_of_rendering {now : Int} {db : Db} {user : Option MiaoshaUser} {goodsId : Long}
    {html : Page} (h : rendering now db user goodsId = .ok html) :
    html.goodsId = some goodsId ∧ html.noUser = user.isNone := by
  unfold rendering at h
  split at h
  · cases h
  · cases h
  · next vo hvo =>
    split at h
    · cases h
      exact ⟨(GoodsMapper.getGoodsVoByGoodsId_some hvo).1, rfl⟩
    · cases h

/-- Of the user a page shows only whether there is one. -/
theorem rendering_congr (now : Int) (db : Db) (goodsId : Long) {x y : Option MiaoshaUser}
    (h : x.isNone = y.isNone) : rendering now db x goodsId = rendering now db y goodsId := by
  simp only [rendering, process, h]

end GoodsController

/-! ## Requests one after another -/

/-- A request answered, for the history. -/
structure Served where
  time : Int
  user : Option MiaoshaUser
  goodsId : Long
  result : Except Ex Page
  /-- A page was made for it, and kept. -/
  made : Bool

/-- The site, the moments it has been through (a time, and the tables then), and who was
served. -/
structure Visits where
  site : DetailSite
  past : List (Int × Db)
  log : List Served

/-- What happens between requests, and the requests. -/
inductive Turn
  | advance (millis : Nat)
  | change (db : Db)
  | request (user : Option MiaoshaUser) (goodsId : Long)

namespace Visits

open GoodsController

/-- Nothing has been asked for and nothing is kept. -/
def start (now : Int) (db : Db) : Visits := ⟨⟨now, db, fun _ => none⟩, [(now, db)], []⟩

/-- A page is kept at the moment. -/
def kept (v : Visits) : Option Page := v.site.staticTemplate.get v.site.now cacheName

/-- What a request made now is answered. -/
def answer (v : Visits) (user : Option MiaoshaUser) (goodsId : Long) : Except Ex Page :=
  ((detail2 user goodsId).exec v.site).1

def served (v : Visits) (user : Option MiaoshaUser) (goodsId : Long) : Served :=
  ⟨v.site.now, user, goodsId, v.answer user goodsId,
    v.kept.isNone && (v.answer user goodsId).isOk⟩

def exec (v : Visits) : Turn → Visits
  | .advance millis =>
    let now := v.site.now + millis
    { v with site := { v.site with now }, past := v.past ++ [(now, v.site.db)] }
  | .change db => { v with site := { v.site with db }, past := v.past ++ [(v.site.now, db)] }
  | .request user goodsId =>
    { v with
      site := ((detail2 user goodsId).exec v.site).2, log := v.log ++ [v.served user goodsId] }

/-- The page is the rendering for the user of the goods' row, as it was at some moment within
the three seconds before. -/
def Shows (v : Visits) (s : Served) (html : Page) : Prop :=
  ∃ m ∈ v.past, m.1 ≤ s.time ∧ s.time < m.1 + 3000 ∧ rendering m.1 m.2 s.user s.goodsId = .ok html

/-- Every page served so far shows what was asked for. -/
def Right (v : Visits) : Prop := ∀ s ∈ v.log, ∀ html, s.result = .ok html → v.Shows s html

/-- The page a request finds, if any, is of the same goods and for a user alike. -/
def SamePage (v : Visits) : Turn → Prop
  | .request user goodsId =>
    ∀ html, v.kept = some html → html.goodsId = some goodsId ∧ html.noUser = user.isNone
  | _ => True

/-- A request does not come within three seconds of a page made for another user or goods. -/
def Own (v : Visits) : Turn → Prop
  | .request user goodsId => ∀ s ∈ v.log, s.made = true → v.site.now < s.time + 3000 →
      s.user = user ∧ s.goodsId = goodsId
  | _ => True

instance (v : Visits) : ∀ l, Decidable (Own v l)
  | .advance _ => inferInstanceAs (Decidable True)
  | .change _ => inferInstanceAs (Decidable True)
  | .request user goodsId => inferInstanceAs (Decidable (∀ s ∈ v.log, s.made = true →
      v.site.now < s.time + 3000 → s.user = user ∧ s.goodsId = goodsId))

/-- Of the requests only those of the user for the goods. -/
def ofUser (user : Option MiaoshaUser) (goodsId : Long) : Turn → Bool
  | .request user' goodsId' => user' = user ∧ goodsId' = goodsId
  | _ => true

/-- Each request is answered as if nobody had asked for anything else before. -/
def Independent (v : Visits) (ls : List Turn) : Prop :=
  ∀ pre user goodsId, pre ++ [.request user goodsId] <+: ls →
    (Run.run exec v pre).answer user goodsId =
      (Run.run exec v (pre.filter (ofUser user goodsId))).answer user goodsId

/-! ### What a turn can do -/

inductive Move (v : Visits) : Turn → Visits → Prop
  | advance {millis : Nat} : Move v (.advance millis)
      { v with
        site := { v.site with now := v.site.now + millis }
        past := v.past ++ [(v.site.now + millis, v.site.db)] }
  | change {db} : Move v (.change db)
      { v with site := { v.site with db }, past := v.past ++ [(v.site.now, db)] }
  | found {user goodsId html} : v.kept = some html →
      Move v (.request user goodsId)
        { v with log := v.log ++ [⟨v.site.now, user, goodsId, .ok html, false⟩] }
  | made {user goodsId html} : v.kept = none →
      rendering v.site.now v.site.db user goodsId = .ok html →
      Move v (.request user goodsId)
        { v with
          site := keep html v.site
          log := v.log ++ [⟨v.site.now, user, goodsId, .ok html, true⟩] }
  | failed {user goodsId e} : v.kept = none →
      rendering v.site.now v.site.db user goodsId = .error e →
      Move v (.request user goodsId)
        { v with log := v.log ++ [⟨v.site.now, user, goodsId, .error e, false⟩] }

theorem exec_move (v : Visits) (l : Turn) : Move v l (v.exec l) := by
  cases l with
  | advance millis => exact .advance
  | change db => exact .change
  | request user goodsId =>
    simp only [exec, served, answer, exec_detail2]
    cases hk : v.kept with
    | some html =>
      rw [kept] at hk
      simp only [hk]
      exact .found hk
    | none =>
      have hk' := hk
      rw [kept] at hk'
      simp only [hk']
      cases hr : rendering v.site.now v.site.db user goodsId with
      | ok html => exact .made hk hr
      | error e => exact .failed hk hr

theorem answer_eq (v : Visits) (user : Option MiaoshaUser) (goodsId : Long) :
    v.answer user goodsId =
      match v.kept with
      | some html => .ok html
      | none => rendering v.site.now v.site.db user goodsId := by
  unfold answer kept
  rw [exec_detail2]
  cases v.site.staticTemplate.get v.site.now cacheName with
  | some html => rfl
  | none => cases rendering v.site.now v.site.db user goodsId <;> rfl

/-- What holds between the page that is kept and the requests so far. -/
structure Inv (v : Visits) : Prop where
  /-- The moment it is. -/
  present : (v.site.now, v.site.db) ∈ v.past
  made : ∀ s ∈ v.log, s.made = true → s.time ≤ v.site.now ∧ ∃ html, s.result = .ok html ∧
    ∃ m ∈ v.past, m.1 = s.time ∧ rendering m.1 m.2 s.user s.goodsId = .ok html
  /-- The page that is kept was made for one of them. -/
  entry : ∀ e, v.site.staticTemplate cacheName = some e →
    ∃ s ∈ v.log, s.made = true ∧ s.result = .ok e.html ∧ e.expires = s.time + 3000
  /-- And it is the only one made within the last three seconds. -/
  latest : ∀ s ∈ v.log, s.made = true → v.site.now < s.time + 3000 →
    ∃ html, v.site.staticTemplate cacheName = some ⟨html, s.time + 3000⟩

theorem Inv.start (now : Int) (db : Db) : Inv (start now db) where
  present := List.mem_singleton_self _
  made := by simp [Visits.start]
  entry := by simp [Visits.start]
  latest := by simp [Visits.start]

/-- A request that finds no page comes three seconds after every page that was made. -/
theorem Inv.expired {v : Visits} (h : Inv v) (hk : v.kept = none) {s : Served} (hs : s ∈ v.log)
    (hm : s.made = true) : s.time + 3000 ≤ v.site.now := by
  by_contra hlt
  obtain ⟨html, he⟩ := h.latest s hs hm (by omega)
  have : v.kept = some html := RMapCache.get_eq_some.2 ⟨_, he, by simp; omega, rfl⟩
  rw [hk] at this
  cases this

/-- A request that leaves no page behind changes nothing that matters here. -/
theorem Inv.logged {v : Visits} (h : Inv v) {s : Served} (hs : s.made = false) :
    Inv { v with log := v.log ++ [s] } where
  present := h.present
  made := by
    rw [Run.forall_mem_snoc]
    refine ⟨h.made, fun hm => ?_⟩
    rw [hs] at hm
    cases hm
  entry := by
    intro e he
    obtain ⟨s', hs', h'⟩ := h.entry e he
    exact ⟨s', List.mem_append_left _ hs', h'⟩
  latest := by
    rw [Run.forall_mem_snoc]
    refine ⟨h.latest, fun hm => ?_⟩
    rw [hs] at hm
    cases hm

theorem Move.inv {v v' : Visits} {l : Turn} (hm : Move v l v') (h : Inv v) : Inv v' := by
  cases hm with
  | @advance millis =>
    refine ⟨by simp, ?_, h.entry, ?_⟩
    · intro s hs hm
      obtain ⟨hle, html, hr, m, hmem, hm'⟩ := h.made s hs hm
      exact ⟨by simp only; omega, html, hr, m, List.mem_append_left _ hmem, hm'⟩
    · intro s hs hm hlt
      simp only at hlt
      exact h.latest s hs hm (by omega)
  | change =>
    refine ⟨by simp, ?_, h.entry, h.latest⟩
    intro s hs hm
    obtain ⟨hle, html, hr, m, hmem, hm'⟩ := h.made s hs hm
    exact ⟨hle, html, hr, m, List.mem_append_left _ hmem, hm'⟩
  | found => exact h.logged rfl
  | failed => exact h.logged rfl
  | @made user goodsId html hk hr =>
    refine ⟨h.present, ?_, ?_, ?_⟩
    · rw [Run.forall_mem_snoc]
      exact ⟨h.made, fun _ => ⟨Int.le_refl _, html, rfl, _, h.present, rfl, hr⟩⟩
    · intro e he
      rw [entry_keep, Option.some.injEq] at he
      subst he
      exact ⟨_, List.mem_append_right _ (List.mem_singleton_self _), rfl, rfl, rfl⟩
    · rw [Run.forall_mem_snoc]
      refine ⟨?_, fun _ _ => ⟨html, entry_keep html v.site⟩⟩
      intro s hs hm hlt
      have := h.expired hk hs hm
      rw [now_keep] at hlt
      omega

/-! ### Every page shows what was asked for -/

/-- A page that is kept is the rendering of one moment within the last three seconds. -/
theorem Inv.kept {v : Visits} (h : Inv v) {html : Page} (hk : v.kept = some html) :
    ∃ s ∈ v.log, s.made = true ∧ v.site.now < s.time + 3000 ∧
      ∃ m ∈ v.past, m.1 ≤ v.site.now ∧ v.site.now < m.1 + 3000 ∧
        rendering m.1 m.2 s.user s.goodsId = .ok html := by
  obtain ⟨e, he, hlt, rfl⟩ := RMapCache.get_eq_some.1 hk
  obtain ⟨s, hs, hm, hres, hexp⟩ := h.entry e he
  obtain ⟨hle, html', hres', m, hmem, htime, hr⟩ := h.made s hs hm
  rw [hres, Except.ok.injEq] at hres'
  subst hres'
  exact ⟨s, hs, hm, by omega, m, hmem, by omega, by omega, hr⟩

theorem right_concat {v : Visits} {s : Served} (hv : Right v) :
    Right { v with log := v.log ++ [s] } ↔ ∀ html, s.result = .ok html → v.Shows s html := by
  constructor
  · intro h
    exact (Run.forall_mem_snoc.1 h).2
  · intro h
    exact Run.forall_mem_snoc.2 ⟨hv, h⟩

/-- Later moments do not make an answer wrong. -/
theorem Right.later {v : Visits} (hv : Right v) (site : DetailSite) (past : List (Int × Db)) :
    Right { v with site, past := v.past ++ past } := by
  intro s hs html hr
  obtain ⟨m, hm, h⟩ := hv s hs html hr
  exact ⟨m, List.mem_append_left _ hm, h⟩

theorem Move.right_iff {v v' : Visits} {l : Turn} (hm : Move v l v') (hi : Inv v) (hv : Right v) :
    Right v' ↔ SamePage v l := by
  cases hm with
  | advance => exact iff_of_true (hv.later _ _) trivial
  | change => exact iff_of_true (hv.later _ _) trivial
  | @found user goodsId html hk =>
    rw [right_concat hv]
    constructor
    · intro h html' hk'
      rw [hk, Option.some.injEq] at hk'
      subst hk'
      obtain ⟨m, -, -, -, hr⟩ := h html rfl
      exact holes_of_rendering hr
    · intro h html' hres
      cases hres
      obtain ⟨hg, hu⟩ := h html hk
      obtain ⟨s, -, -, -, m, hmem, hle, hlt, hr⟩ := hi.kept hk
      obtain ⟨hg', hu'⟩ := holes_of_rendering hr
      -- The page says itself for which goods, and for whom, it was made.
      rw [hg', Option.some.injEq] at hg
      rw [hu'] at hu
      refine ⟨m, hmem, hle, hlt, ?_⟩
      simp only
      rw [rendering_congr _ _ _ hu.symm, ← hg]
      exact hr
  | @made user goodsId html hk hr =>
    refine iff_of_true ?_ ?_
    · refine (right_concat (v := { v with site := keep html v.site }) hv).2 ?_
      intro html' hres
      cases hres
      exact ⟨_, hi.present, Int.le_refl _, by simp only; omega, hr⟩
    · intro html' hk'
      rw [hk] at hk'
      cases hk'
  | failed hk =>
    refine iff_of_true ?_ ?_
    · rw [right_concat hv]
      intro html hres
      cases hres
    · intro html hk'
      rw [hk] at hk'
      cases hk'

/-- **When the page is the one asked for.** Every page ever served shows the goods asked for, to
a user like the one who asked, as of some moment within the last three seconds, exactly when
every request that finds a page kept finds one of its own goods and for a user like its own. -/
theorem right_iff (now : Int) (db : Db) (ls : List Turn) :
    Run.Always exec Right (start now db) ls ↔ Run.Along exec SamePage (start now db) ls :=
  Run.always_iff_along (I := Inv) (fun v l hi => (exec_move v l).inv hi)
    (fun v l hi hv => (exec_move v l).right_iff hi hv) (.start now db) (by simp [Right, start])

theorem Inv.same_of_own {v : Visits} (h : Inv v) {l : Turn} (ho : Own v l) : SamePage v l := by
  cases l with
  | advance | change => trivial
  | request user goodsId =>
    intro html hk
    obtain ⟨s, hs, hm, hlt, m, -, -, -, hr⟩ := h.kept hk
    obtain ⟨rfl, rfl⟩ := ho s hs hm hlt
    exact holes_of_rendering hr

/-! ### Nobody can tell what others asked for -/

/-- Of two sites, one of which only the user's own requests for the goods have reached: what
the latter keeps, the former does, and what the former keeps for that user, the latter does. -/
structure Alike (user : Option MiaoshaUser) (goodsId : Long) (v v' : Visits) : Prop where
  now : v'.site.now = v.site.now
  db : v'.site.db = v.site.db
  kept : ∀ e, v'.site.staticTemplate cacheName = some e → v.site.now < e.expires →
    v.site.staticTemplate cacheName = some e
  made : ∀ s ∈ v.log, s.made = true → v.site.now < s.time + 3000 → s.user = user →
    s.goodsId = goodsId → v'.site.staticTemplate cacheName = v.site.staticTemplate cacheName

variable {user : Option MiaoshaUser} {goodsId : Long} {v v' : Visits}

theorem Alike.refl (h : v.log = []) : Alike user goodsId v v where
  now := rfl
  db := rfl
  kept := fun _ he _ => he
  made := by simp [h]

/-- The user finds the same page in both. -/
theorem Alike.kept_eq (h : Alike user goodsId v v') (hi : Inv v) (ho : Own v (.request user goodsId)) :
    v'.kept = v.kept := by
  cases hk : v.kept with
  | some html =>
    obtain ⟨s, hs, hm, hlt, -⟩ := hi.kept hk
    obtain ⟨hu, hg⟩ := ho s hs hm hlt
    rw [← hk, Visits.kept, Visits.kept, RMapCache.get, RMapCache.get, h.now, h.made s hs hm hlt hu hg]
  | none =>
    cases hk' : v'.kept with
    | none => rfl
    | some html =>
      obtain ⟨e, he, hlt, rfl⟩ := RMapCache.get_eq_some.1 hk'
      rw [h.now] at hlt
      have : v.kept = some e.html := RMapCache.get_eq_some.2 ⟨e, h.kept e he hlt, hlt, rfl⟩
      rw [hk] at this
      cases this

theorem Alike.answer (h : Alike user goodsId v v') (hi : Inv v)
    (ho : Own v (.request user goodsId)) : v.answer user goodsId = v'.answer user goodsId := by
  rw [answer_eq, answer_eq, h.kept_eq hi ho, h.now, h.db]

/-- An answer that leaves no page behind. -/
theorem Alike.logged (h : Alike user goodsId v v') {s : Served} (hs : s.made = false) :
    Alike user goodsId { v with log := v.log ++ [s] } v' where
  now := h.now
  db := h.db
  kept := h.kept
  made := by
    rw [Run.forall_mem_snoc]
    refine ⟨h.made, fun hm => ?_⟩
    rw [hs] at hm
    cases hm

/-- A page made for somebody else, once the last one has expired. -/
theorem Alike.made_other (h : Alike user goodsId v v') (hi : Inv v) (hk : v.kept = none)
    {x : Option MiaoshaUser} {g : Long} (hne : ¬ (x = user ∧ g = goodsId)) (html : Page) :
    Alike user goodsId
      { v with
        site := keep html v.site, log := v.log ++ [⟨v.site.now, x, g, .ok html, true⟩] } v' where
  now := h.now
  db := h.db
  kept := by
    intro e he hlt
    rw [now_keep] at hlt
    have : v.kept = some e.html := RMapCache.get_eq_some.2 ⟨e, h.kept e he hlt, hlt, rfl⟩
    rw [hk] at this
    cases this
  made := by
    rw [Run.forall_mem_snoc]
    refine ⟨?_, fun _ _ hu hg => absurd ⟨hu, hg⟩ hne⟩
    intro s hs hm hlt
    have := hi.expired hk hs hm
    rw [now_keep] at hlt
    omega

/-- The user's own request. -/
theorem Alike.request (h : Alike user goodsId v v') (hi : Inv v)
    (ho : Own v (.request user goodsId)) :
    Alike user goodsId (v.exec (.request user goodsId)) (v'.exec (.request user goodsId)) := by
  have hkept := h.kept_eq hi ho
  generalize hv : v.exec (.request user goodsId) = w
  generalize hv' : v'.exec (.request user goodsId) = w'
  have hm : Move v (.request user goodsId) w := hv ▸ exec_move v _
  have hm' : Move v' (.request user goodsId) w' := hv' ▸ exec_move v' _
  cases hm with
  | found hk =>
    rw [hk] at hkept
    cases hm' with
    | found => exact ⟨h.now, h.db, (h.logged rfl).kept, (h.logged rfl).made⟩
    | made hk' => rw [hkept] at hk'; cases hk'
    | failed hk' => rw [hkept] at hk'; cases hk'
  | made hk hr =>
    rw [hk] at hkept
    cases hm' with
    | found hk' => rw [hkept] at hk'; cases hk'
    | made hk' hr' =>
      rw [h.now, h.db, hr, Except.ok.injEq] at hr'
      subst hr'
      refine ⟨h.now, h.db, ?_, ?_⟩
      · intro e he _
        rw [entry_keep, h.now] at he
        rw [entry_keep]
        exact he
      · intro s _ _ _ _ _
        rw [entry_keep, entry_keep, h.now]
    | failed hk' hr' =>
      rw [h.now, h.db, hr] at hr'
      cases hr'
  | failed hk hr =>
    rw [hk] at hkept
    cases hm' with
    | found hk' => rw [hkept] at hk'; cases hk'
    | made hk' hr' =>
      rw [h.now, h.db, hr] at hr'
      cases hr'
    | failed hk' => exact ⟨h.now, h.db, (h.logged rfl).kept, (h.logged rfl).made⟩

/-- The other site takes a turn only if it is not somebody else's request. -/
theorem Alike.step (h : Alike user goodsId v v') (hi : Inv v) {l : Turn} (ho : Own v l) :
    Alike user goodsId (v.exec l) (if ofUser user goodsId l then v'.exec l else v') := by
  cases l with
  | advance millis =>
    refine ⟨?_, h.db, ?_, ?_⟩
    · show v'.site.now + millis = v.site.now + millis
      rw [h.now]
    · intro e he hlt
      have : v.site.now + millis < e.expires := hlt
      exact h.kept e he (by omega)
    · intro s hs hm hlt
      have : v.site.now + millis < s.time + 3000 := hlt
      exact h.made s hs hm (by omega)
  | change db => exact ⟨h.now, rfl, h.kept, h.made⟩
  | request x g =>
    by_cases hxg : x = user ∧ g = goodsId
    · obtain ⟨rfl, rfl⟩ := hxg
      simp only [ofUser, and_self, decide_true, if_true]
      exact h.request hi ho
    · simp only [ofUser, hxg, decide_false]
      generalize hv : v.exec (.request x g) = w
      have hm : Move v (.request x g) w := hv ▸ exec_move v _
      cases hm with
      | found => exact h.logged rfl
      | made hk => exact h.made_other hi hk hxg _
      | failed => exact h.logged rfl

theorem Alike.run (h : Alike user goodsId v v') (hi : Inv v) {ls : List Turn}
    (ho : Run.Along exec Own v ls) :
    Alike user goodsId (Run.run exec v ls) (Run.run exec v' (ls.filter (ofUser user goodsId))) := by
  induction ls generalizing v v' with
  | nil => exact h
  | cons l ls ih =>
    have hstep := h.step hi ho.1
    rw [List.filter_cons]
    split
    · next hl =>
      rw [if_pos hl] at hstep
      exact ih hstep ((exec_move v l).inv hi) ho.2
    · next hl =>
      rw [if_neg hl] at hstep
      exact ih hstep ((exec_move v l).inv hi) ho.2

/-- **The page that was asked for.** As long as no request comes within three seconds of a page
made for another user or another goods, every page served is the rendering for the user of the
goods' row at some moment of the last three seconds, and is the page that would have been served
had nobody asked for anything else. -/
theorem served_as_asked (now : Int) (db : Db) (ls : List Turn)
    (h : Run.Along exec Own (start now db) ls) :
    Run.Always exec Right (start now db) ls ∧ Independent (start now db) ls := by
  have hinv : ∀ v l, Inv v → Inv (exec v l) := fun v l hi => (exec_move v l).inv hi
  constructor
  · rw [right_iff]
    exact Run.Along.imp hinv (fun v l hi ho => hi.same_of_own ho) (.start now db) h
  · intro pre user goodsId hpre
    obtain ⟨post, rfl⟩ := hpre
    rw [Run.along_append, Run.along_append] at h
    obtain ⟨⟨hown, hlast, -⟩, -⟩ := h
    have halike : Alike user goodsId (start now db) (start now db) := .refl rfl
    exact (halike.run (.start now db) hown).answer
      (Run.run_invariant hinv _ _ (.start now db)) hlast

/-- Goods 1 and 2, both on sale for the first ten seconds. -/
def twoOnSale : Db where
  goods := (Shop.two 8 10).db.goods
  miaoshaGoods := ⟨[
    { goodsId := some 1, stockCount := some 8, startDate := some 0, endDate := some 10000 },
    { goodsId := some 2, stockCount := some 10, startDate := some 0, endDate := some 10000 }], by simp⟩
  orderInfo := (Shop.two 8 10).db.orderInfo
  miaoshaOrder := (Shop.two 8 10).db.miaoshaOrder

/-- A user looks at goods 1 and then at goods 2: twice they get the page of goods 1. -/
theorem second_goods_shows_first :
    ¬ (Run.Always exec Right (start 0 twoOnSale)
        [.request (some { id := some 7 }) 1, .request (some { id := some 7 }) 2] ∨
      Independent (start 0 twoOnSale)
        [.request (some { id := some 7 }) 1, .request (some { id := some 7 }) 2]) := by
  intro hx
  rcases hx with h | h
  · rw [right_iff] at h
    have hpage := h.2.1 _ rfl
    revert hpage
    decide
  · have hpage := h [.request (some { id := some 7 }) 1] (some { id := some 7 }) 2 (by simp)
    revert hpage
    decide

/-- Goods 1 twice, and goods 2 three seconds later. -/
theorem served_as_asked_in_turn :
    Run.Always exec Right (start 0 twoOnSale)
        [.request (some { id := some 7 }) 1, .request (some { id := some 7 }) 1, .advance 3000,
          .request none 2] ∧
      Independent (start 0 twoOnSale)
        [.request (some { id := some 7 }) 1, .request (some { id := some 7 }) 1, .advance 3000,
          .request none 2] :=
  served_as_asked 0 twoOnSale _ (by decide)

end Visits

end CfsShop
