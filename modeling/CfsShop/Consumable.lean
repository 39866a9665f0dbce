/-
Every message a request hands over can be consumed: it has a user with an id,
and a goods in the sale with a stock. Nothing in the consumer checks for that.

The user is there because a login puts the user into Redis before it returns the
token (`Sessions`). The goods is there because a request gets to the queue
only past an over-mark that is false, and only a start-up writes one, for goods
it has found, after it has unboxed the stock.
-/
import CfsShop.Delivery
import CfsShop.Provenance
import CfsShop.Sessions

namespace CfsShop

/-! ## What the start-up lists -/

/-- A goods the start-up may mark: if it has an id and a stock, it is in the sale. -/
def GoodsVo.Backed (db : Db) (vo : GoodsVo) : Prop :=
  ∀ g n, vo.id = some g → vo.stockCount = some n → db.Sells g

theorem GoodsMapper.listGoodsVo_backed {db : Db} {vo : GoodsVo} (h : vo ∈ listGoodsVo db) :
    vo.Backed db := by
  intro g n hg hn
  rw [listGoodsVo, List.mem_map] at h
  obtain ⟨mg, hmg, rfl⟩ := h
  simp only [GoodsVo.join, Option.map_eq_some_iff, Option.bind_eq_some_iff] at hg hn
  obtain ⟨a, ⟨g', hg', ha⟩, rfl⟩ := hg
  have hkey := Table.key_of_find? ha
  simp only [Option.some.injEq] at hkey
  rw [hkey]
  have hfind : db.miaoshaGoods.find? g' = some mg := db.miaoshaGoods.find?_of_mem hmg hg'
  exact ⟨by simp [ha], by simp [Db.stock, hfind, hn]⟩

/-- Goods stay in the sale. -/
theorem Frame.Step.sells {now : Date} {s s' : Shop} {f f' : Frame} {es : List Event}
    (h : Step now s f s' f' es) {g : Long} (hg : s.db.Sells g) : s'.db.Sells g := by
  refine ⟨?_, ?_⟩
  · rw [h.goods]
    exact hg.1
  · rw [(h.stock g).1, Option.isSome_map]
    exact hg.2

theorem Job.Step.sells {md5Hex : List UInt16 → String} {x : Input} {w w' : World} {j j' : Job}
    {es : List Happening} (h : Step md5Hex x w j w' j' es) {g : Long} (hg : w.shop.db.Sells g) :
    w'.shop.db.Sells g := by
  rcases h.records with ⟨f, f', evs, -, -, hs, -⟩ | ⟨hdb, -⟩
  · exact hs.sells hg
  · rw [hdb]
    exact hg

/-! ## Marks and messages -/

namespace Consumable

/-- A goods that is marked as not sold out, or was handed over, is in the sale. -/
structure Marked (w : World) (log : List Happening) : Prop where
  marks : ∀ node g, w.localOverMap node (some g) = some false → w.shop.db.Sells g
  handed : ∀ r now m taken, .handed r now m taken ∈ log → w.shop.db.Sells m.goodsId

/-- Where a request has passed the over-mark, the goods is in the sale; a start-up marks
only such. -/
def Fits (w : World) (_ : List Happening) : Job → Prop
  | .miaosha _ _ (.getOrder c _) | .miaosha _ _ (.send c _) => w.shop.db.Sells c.goodsId
  | .startUp _ (.load goodsList) => ∀ vo ∈ goodsList, vo.Backed w.shop.db
  | .startUp _ (.mark goods rest) => (∀ g, goods.id = some g → w.shop.db.Sells g) ∧
      ∀ vo ∈ rest, vo.Backed w.shop.db
  | _ => True

variable {md5Hex : List UInt16 → String} {x : Input} {w w' : World} {j j' : Job}
  {es log : List Happening}

theorem Fits.later (h : Fits w log j) (hs : ∀ g, w.shop.db.Sells g → w'.shop.db.Sells g)
    (log' : List Happening) : Fits w' log' j := by
  have hbacked : ∀ {vo : GoodsVo}, vo.Backed w.shop.db → vo.Backed w'.shop.db :=
    fun hvo g n hg hn => hs g (hvo g n hg hn)
  cases j with
  | miaosha r k f =>
    cases f with
    | getOrder c n | send c n => exact hs _ h
    | _ => trivial
  | startUp node f =>
    cases f with
    | load goodsList => exact fun vo hvo => hbacked (h vo hvo)
    | mark goods rest => exact ⟨fun g hg => hs g (h.1 g hg), fun vo hvo => hbacked (h.2 vo hvo)⟩
    | _ => trivial
  | _ => trivial

/-- A request does not put a mark that says there is some left. -/
theorem marks_request {up : Bool} {v v' : Web} {f f' : Request} {as : List Answer}
    (h : Request.Step true up v f v' f' as) {id : Option Long} (hm : v'.localOverMap id = some false) :
    v.localOverMap id = some false := by
  cases h with
  | put =>
    simp only [MiaoShaController.putOver, Function.update_apply] at hm
    split at hm
    · cases hm
    · exact hm
  | _ => exact hm

/-- A start-up puts one for the goods it is at. -/
theorem marks_startUp {db : Db} {v v' : Web} {f f' : StartUp} (h : StartUp.Step db v f v' f')
    {id : Option Long} (hm : v'.localOverMap id = some false) :
    v.localOverMap id = some false ∨ ∃ goods rest, f = .mark goods rest ∧ goods.id = id := by
  cases h with
  | @marked goods rest =>
    simp only [Function.update_apply] at hm
    split at hm
    · next he => exact .inr ⟨goods, rest, rfl, he.symm⟩
    · exact .inl hm
  | _ => exact .inl hm

theorem marks_step (h : Job.Step md5Hex x w j w' j' es) {node : Nat} {g : Long}
    (hm : w'.localOverMap node (some g) = some false) :
    w.localOverMap node (some g) = some false ∨
      ∃ node' goods rest, j = .startUp node' (.mark goods rest) ∧ goods.id = some g := by
  cases h with
  | @served r k f v f' as hs =>
    rw [World.localOverMap_setWeb] at hm
    split at hm
    · next he =>
      rw [he]
      exact .inl (marks_request hs hm)
    · exact .inl hm
  | @loaded node' f v f' hs =>
    rw [World.localOverMap_setWeb] at hm
    split at hm
    · next he =>
      rw [he]
      rcases marks_startUp hs hm with hm | ⟨goods, rest, rfl, hid⟩
      · exact .inl hm
      · exact .inr ⟨node', goods, rest, rfl, hid⟩
    · exact .inl hm
  | _ => exact .inl hm

/-- What is handed over has passed the over-mark. -/
theorem handed_step (h : Job.Step md5Hex x w j w' j' es) (hj : Fits w log j) {r : HttpRequest}
    {now : Int} {m : MiaoshaMessage} {taken : Bool} (hh : .handed r now m taken ∈ es) :
    w.shop.db.Sells m.goodsId := by
  cases h.reports hh with
  | handed => exact hj

/-- Past the mark, or past the stock, the goods is in the sale. -/
theorem fits_step (h : Job.Step md5Hex x w j w' j' es) (hw : Marked w log) (hj : Fits w log j) :
    Fits w' (log ++ es) j' := by
  cases h with
  | @served r k f v f' as hs =>
    cases hs with
    | passed hm => exact hw.marks r.node _ (hm rfl)
    | notYet => exact hj
    | _ => trivial
  | @loaded node f v f' hs =>
    cases hs with
    | listed => exact fun vo hvo => GoodsMapper.listGoodsVo_backed hvo
    | @counted goods rest stock hs =>
      refine ⟨fun g hg => hj goods List.mem_cons_self g stock hg hs, ?_⟩
      exact fun vo hvo => hj vo (List.mem_cons_of_mem _ hvo)
    | marked => exact hj.2
    | _ => trivial
  | _ => trivial

theorem step_marked (h : Job.Step md5Hex x w j w' j' es) (hw : Marked w log) (hj : Fits w log j) :
    Marked w' (log ++ es) ∧ Fits w' (log ++ es) j' ∧
      ∀ i, Fits w log i → Fits w' (log ++ es) i := by
  refine ⟨⟨?_, ?_⟩, fits_step h hw hj, fun i hi => hi.later (fun g hg => h.sells hg) _⟩
  · intro node g hm
    refine h.sells ?_
    rcases marks_step h hm with hm | ⟨node', goods, rest, rfl, hid⟩
    · exact hw.marks node g hm
    · exact hj.1 g hid
  · intro r now m taken hh
    refine h.sells ?_
    rcases List.mem_append.1 hh with hh | hh
    · exact hw.handed r now m taken hh
    · exact handed_step h hj hh

theorem spawn_fits (hf : (system md5Hex).allows w j = true) : Fits w log j := by
  obtain ⟨r, rfl⟩ | ⟨node, rfl⟩ | ⟨msgs, rfl⟩ := system_allows hf <;> trivial

theorem move_marked {p p' : System} {l : Label Job Input} (hm : Pool.Move (system md5Hex) p l p')
    (hp : Pool.Each Marked Fits p) : Pool.Each Marked Fits p' :=
  hm.each (fun _ _ _ _ hf => spawn_fits hf)
    (fun _ _ _ _ _ _ _ hw hf hs => step_marked (system_step hs) hw hf) hp

theorem start_marked (db : Db) (miaoshaUser : Table MiaoshaUser Long MiaoshaUser.id)
    (bloomFileter : Long → Bool) :
    Pool.Each Marked Fits (System.start db miaoshaUser bloomFileter) := by
  refine ⟨⟨?_, ?_⟩, ?_⟩
  · intro node g hm
    cases hm
  · intro r now m taken hh
    cases hh
  · intro t ht
    cases ht

/-! ## The consumer -/

/-- No consumer has met a null. -/
def NoNull (p : System) : Prop := ∀ t ∈ p.threads, t.frame ≠ .consumer (.threw .nullPointer)

/-- Everything the consumers rely on. -/
structure Safe (md5Hex : List UInt16 → String) (db₀ : Db)
    (miaoshaUser : Table MiaoshaUser Long MiaoshaUser.id) (p : System) : Prop where
  authentic : Authentic md5Hex miaoshaUser p
  traced : Pool.Each (Provenance.Traced db₀) Provenance.Fits p
  marked : Pool.Each Marked Fits p
  noNull : NoNull p

variable {db₀ : Db} {miaoshaUser : Table MiaoshaUser Long MiaoshaUser.id}

/-- What was handed over can be delivered. -/
theorem Safe.deliverable {p : System} (h : Safe md5Hex db₀ miaoshaUser p) {r : HttpRequest} {now : Int}
    {m : MiaoshaMessage} {taken : Bool} (hh : .handed r now m taken ∈ p.log) :
    p.store.shop.db.Deliverable m := by
  obtain ⟨-, user, u, -, -, hm, hu, -⟩ := h.authentic.handed r now m taken hh
  refine ⟨h.marked.1.handed r now m taken hh, ?_⟩
  rw [MiaoshaMessage.userId, hm, Option.bind_some, hu]
  rfl

/-- A consumer at work on messages of the queue meets no null. -/
theorem Safe.consumer {p : System} (h : Safe md5Hex db₀ miaoshaUser p) {f f' : Frame} {s : Shop}
    {evs : List Event} (hf : Provenance.Fits p.store p.log (.consumer f))
    (hs : f.step x.now p.store.shop = some (s, f', evs)) : f' ≠ .threw .nullPointer := by
  intro h
  subst h
  cases Frame.step_spec hs with
  | @failed m rest e =>
    obtain ⟨r, now, hh⟩ := h.traced.1.queue m (hf m List.mem_cons_self)
    exact Frame.step_loop_deliverable (h.deliverable hh) hs

theorem Safe.move {p p' : System} {l : Label Job Input} (hm : Pool.Move (system md5Hex) p l p')
    (hp : Safe md5Hex db₀ miaoshaUser p) (hl : Honest p l) : Safe md5Hex db₀ miaoshaUser p' where
  authentic := hp.authentic.move hm hl
  traced := Provenance.move_traced hm hp.traced
  marked := move_marked hm hp.marked
  noNull := by
    refine hm.threads (Q := fun t => t.frame ≠ .consumer (.threw .nullPointer)) hp.noNull ?_ ?_ ?_
    · intro f hf h
      subst h
      cases hf
    · intro x f s f' es hmem hs he
      subst he
      rcases (system_step hs).records with ⟨g, g', evs, rfl, -⟩ | ⟨-, -, hcons⟩
      · have hfits := hp.traced.2 _ hmem
        simp only [system, Job.step] at hs
        split at hs
        · next hstep =>
          cases hs
          exact hp.consumer hfits hstep rfl
        · cases hs
      · obtain ⟨msgs, he⟩ := hcons _ rfl
        cases he
    · intro i t _ ht
      exact hp.noNull t (List.mem_of_getElem? ht)

end Consumable

/-- **Every enqueued message can be consumed.** In every state of every honest run, each message
that was ever handed to `MQSender` has a user with an id, its goods is found, with a stock
that is not null, and no consumer has met a null. -/
theorem handed_consumable (md5Hex : List UInt16 → String) (db : Db)
    (miaoshaUser : Table MiaoshaUser Long MiaoshaUser.id) (bloomFileter : Long → Bool)
    (ls : List (Label Job Input))
    (h : Run.Along (Pool.exec (system md5Hex)) Honest (System.start db miaoshaUser bloomFileter) ls) :
    let p := System.after md5Hex (System.start db miaoshaUser bloomFileter) ls
    (∀ r now m taken, .handed r now m taken ∈ p.log → ∃ user u vo n,
      m.user = some user ∧ user.id = some u ∧
      GoodsMapper.getGoodsVoByGoodsId p.store.shop.db m.goodsId = .ok (some vo) ∧
      vo.stockCount = some n) ∧
    ∀ t ∈ p.threads, t.frame ≠ .consumer (.threw .nullPointer) := by
  intro p
  have hstart : Consumable.Safe md5Hex db miaoshaUser (System.start db miaoshaUser bloomFileter) :=
    ⟨.start db bloomFileter, Provenance.start_traced db miaoshaUser bloomFileter,
      Consumable.start_marked db miaoshaUser bloomFileter, fun t ht => by cases ht⟩
  have halways : Run.Always (Pool.exec (system md5Hex)) (Consumable.Safe md5Hex db miaoshaUser)
      (System.start db miaoshaUser bloomFileter) ls :=
    h.always (fun q l hq hl => hq.move (Pool.exec_move (system md5Hex) q l) hl) hstart
  have hp : Consumable.Safe md5Hex db miaoshaUser p := halways.last
  refine ⟨?_, hp.noNull⟩
  intro r now m taken hh
  obtain ⟨l, n, rfl, -, hgoods, hn, -⟩ := (hp.deliverable hh).locals []
  exact ⟨l.user, l.userId, l.goods, n, rfl, l.user_id, hgoods, hn⟩

/-- The goods of the one message of a sale with one user, once it is sold. -/
theorem handed_consumable_of_one :
    ∃ vo n, GoodsMapper.getGoodsVoByGoodsId
        (System.after OneSale.md5Hex (OneSale.start (Shop.one 1).db) OneSale.all).store.shop.db 1 =
          .ok (some vo) ∧ vo.stockCount = some n := by
  obtain ⟨hhanded, -⟩ := handed_consumable OneSale.md5Hex (Shop.one 1).db ⟨[OneSale.user], by simp⟩
    (fun _ => true) OneSale.all (by decide +kernel)
  obtain ⟨-, -, vo, n, -, -, hvo, hn⟩ :=
    hhanded OneSale.order 0 ⟨some OneSale.user, 1⟩ true (by decide +kernel)
  exact ⟨vo, n, hvo, hn⟩

end CfsShop
