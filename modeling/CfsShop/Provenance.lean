/-
Where orders come from: every row the consumers have written goes back to a
message a request has handed to the queue.

This holds of every run, whatever the broker delivers and however often, as long
as it delivers only what it was given. `Traced.rows` is what everything about
whose orders these are, and when they were made, starts from.
-/
import CfsShop.System

namespace CfsShop

namespace Frame

/-- The messages a consumer is at work on, or still has to do. -/
def messages : Frame → List MiaoshaMessage
  | loop msgs => msgs
  | getMiaoshaOrder l | reduceStock l | insert l | lastInsertId l _ | insertMiaoshaOrder l _
  | putMiaoshaOrder l _ | setGoodsOver l => l.message :: l.rest
  | threw _ => []

/-- It takes on no others. -/
theorem Step.messages_subset {now : Date} {s s' : Shop} {f f' : Frame} {es : List Event}
    (h : Step now s f s' f' es) : ∀ m ∈ f'.messages, m ∈ f.messages := by
  intro m hm
  cases h with
  | failed | soldOut | duplicate => cases hm
  | lookedUp _ _ hl hrest =>
    rw [hl, hrest]
    exact hm
  | repeated | put | marked => exact List.mem_cons_of_mem _ hm
  | _ => exact hm

end Frame

namespace World

/-- The queue has had a message of the user for the goods. -/
def Posted (w : World) (u g : Long) : Prop :=
  ∃ m ∈ w.messages, m.user.bind (·.id) = some u ∧ m.goodsId = g

/-- A message the consumers have is one of the queue. -/
theorem posted_message {w : World} {l : Locals} (h : l.message ∈ w.messages) :
    w.Posted l.userId l.goodsId :=
  ⟨l.message, h, l.user_id, rfl⟩

end World

namespace Request.Step

variable {marked up : Bool} {w w' : Web} {f f' : Request} {es : List Answer}

/-- A request adds to the queue what it hands over, if that is taken, and nothing else. -/
theorem broker (h : Step marked up w f w' f' es) :
    w'.broker = w.broker ∨ up = true ∧ ∃ c k, f = .send c k ∧
      w'.broker = w.broker ++ [Message.new MQConfig.MIAOSHA_QUEUE ⟨c.user, c.goodsId⟩] := by
  cases h with
  | @sent c k hup => exact .inr ⟨hup, c, k, rfl, rfl⟩
  | _ => exact .inl rfl

end Request.Step

theorem StartUp.Step.broker {db : Db} {w w' : Web} {f f' : StartUp} (h : Step db w f w' f') :
    w'.broker = w.broker := by
  cases h <;> rfl

namespace Job.Step

variable {md5Hex : List UInt16 → String} {x : Input} {w w' : World} {j j' : Job}
  {es : List Happening}

/-- The queue grows by what is handed over. -/
theorem messages (h : Step md5Hex x w j w' j' es) :
    w'.messages = w.messages ∨
      ∃ r m, w'.messages = w.messages ++ [m] ∧ .handed r x.now m true ∈ es := by
  cases h with
  | @served r k f v f' as hs =>
    rcases hs.broker with hb | ⟨hup, c, n, rfl, hb⟩
    · left
      show v.broker.map _ = _
      rw [hb]
      rfl
    · right
      refine ⟨r, ⟨c.user, c.goodsId⟩, ?_, ?_⟩
      · show v.broker.map _ = _
        rw [hb, List.map_append]
        rfl
      · simp [HttpRequest.hands, hup]
  | loaded hs =>
    left
    show List.map _ _ = _
    rw [World.broker_setWeb, hs.broker]
    rfl
  | _ => exact .inl rfl

theorem messages_mono (h : Step md5Hex x w j w' j' es) : ∀ m ∈ w.messages, m ∈ w'.messages := by
  intro m hm
  rcases h.messages with he | ⟨r, m', he, -⟩
  · rw [he]
    exact hm
  · rw [he]
    exact List.mem_append_left _ hm

theorem posted_mono (h : Step md5Hex x w j w' j' es) {u g : Long} (hp : w.Posted u g) :
    w'.Posted u g := by
  obtain ⟨m, hm, he⟩ := hp
  exact ⟨m, h.messages_mono m hm, he⟩

end Job.Step

/-! ## Rows and messages -/

namespace Provenance

/-- The queue holds what requests have handed over, and the new rows what the queue has held. -/
structure Traced (db₀ : Db) (w : World) (log : List Happening) : Prop where
  grows : db₀.Extends w.shop.db
  queue : ∀ m ∈ w.messages, ∃ r now, .handed r now m true ∈ log
  infos : ∀ i ∈ db₀.newInfos w.shop.db,
    ∃ u g, i.userId = some u ∧ i.goodsId = some g ∧ w.Posted u g
  orders : ∀ o ∈ db₀.newOrders w.shop.db,
    ∃ u g, o.userId = some u ∧ o.goodsId = some g ∧ w.Posted u g

/-- Consumers work on messages of the queue. -/
def Fits (w : World) (_ : List Happening) : Job → Prop
  | .consumer f => ∀ m ∈ f.messages, m ∈ w.messages
  | _ => True

variable {md5Hex : List UInt16 → String} {x : Input} {w w' : World} {j j' : Job}
  {es log : List Happening} {db₀ : Db}

/-- What is on the books stays there. -/
theorem Traced.kept (h : Job.Step md5Hex x w j w' j' es) (hw : Traced db₀ w log)
    (hdb : w'.shop.db = w.shop.db) : Traced db₀ w' (log ++ es) where
  grows := hdb ▸ hw.grows
  queue := by
    intro m hm
    have hold : m ∈ w.messages → ∃ r now, .handed r now m true ∈ log ++ es := by
      intro hm
      obtain ⟨r, now, hr⟩ := hw.queue m hm
      exact ⟨r, now, List.mem_append_left _ hr⟩
    rcases h.messages with he | ⟨r, m', he, hes⟩
    · exact hold (he ▸ hm)
    · rw [he, List.mem_append, List.mem_singleton] at hm
      rcases hm with hm | rfl
      · exact hold hm
      · exact ⟨r, x.now, List.mem_append_right _ hes⟩
  infos := by
    rw [hdb]
    intro i hi
    obtain ⟨u, g, hu, hg, hp⟩ := hw.infos i hi
    exact ⟨u, g, hu, hg, h.posted_mono hp⟩
  orders := by
    rw [hdb]
    intro o ho
    obtain ⟨u, g, hu, hg, hp⟩ := hw.orders o ho
    exact ⟨u, g, hu, hg, h.posted_mono hp⟩

/-- A statement of a consumer. -/
theorem Traced.consumed {now : Date} {shop : Shop} {f f' : Frame} {evs : List Event}
    (hs : Frame.Step now w.shop f shop f' evs) (hw : Traced db₀ w log)
    (hf : ∀ m ∈ f.messages, m ∈ w.messages) : Traced db₀ { w with shop } log := by
  have hgrows : db₀.Extends shop.db := hs.extends_ hw.grows
  cases hs with
  | @inserted l =>
    refine ⟨hgrows, hw.queue, ?_, hw.orders⟩
    rw [Db.newInfos_insert hw.grows, Run.forall_mem_snoc]
    exact ⟨hw.infos, l.userId, l.goodsId, l.user_id, l.goods_id,
      World.posted_message (hf _ List.mem_cons_self)⟩
  | @ordered l id t ht =>
    refine ⟨hgrows, hw.queue, hw.infos, ?_⟩
    rw [Db.newOrders_insert hw.grows ht, Run.forall_mem_snoc]
    exact ⟨hw.orders, l.userId, l.goodsId, l.user_id, l.goods_id,
      World.posted_message (hf _ List.mem_cons_self)⟩
  | _ => exact ⟨hgrows, hw.queue, hw.infos, hw.orders⟩

theorem step_traced (h : Job.Step md5Hex x w j w' j' es) (hw : Traced db₀ w log) (hj : Fits w log j) :
    Traced db₀ w' (log ++ es) ∧ Fits w' (log ++ es) j' ∧
      ∀ i, Fits w log i → Fits w' (log ++ es) i := by
  have hother : ∀ i, Fits w log i → Fits w' (log ++ es) i := by
    intro i hi
    cases i with
    | consumer g => exact fun m hm => h.messages_mono m (hi m hm)
    | _ => trivial
  rcases h.records with ⟨f, f', evs, rfl, rfl, hs, hw', rfl⟩ | ⟨hdb, -⟩
  · refine ⟨?_, ?_, hother⟩
    · rw [List.append_nil, hw']
      exact hw.consumed hs hj
    · exact fun m hm => h.messages_mono m (hj m (hs.messages_subset m hm))
  · refine ⟨Traced.kept h hw hdb, ?_, hother⟩
    cases h with
    | delivered hm => exact hm
    | consumed hs => exact fun m hm => hj m (hs.messages_subset m hm)
    | _ => trivial

theorem spawn_fits (hf : (system md5Hex).allows w j = true) : Fits w log j := by
  obtain ⟨r, rfl⟩ | ⟨node, rfl⟩ | ⟨msgs, rfl⟩ := system_allows hf <;> trivial

theorem start_traced (db : Db) (miaoshaUser : Table MiaoshaUser Long MiaoshaUser.id)
    (bloomFileter : Long → Bool) :
    Pool.Each (Traced db) Fits (System.start db miaoshaUser bloomFileter) := by
  refine ⟨⟨Db.Extends.refl db, by simp [System.start, World.initial, World.messages], ?_, ?_⟩, ?_⟩
  · show ∀ i ∈ db.newInfos db, _
    rw [db.newInfos_self]
    simp
  · show ∀ o ∈ db.newOrders db, _
    rw [db.newOrders_self]
    simp
  · intro t ht
    cases ht

/-- The books of one label. -/
theorem move_traced {p p' : System} {l : Label Job Input} (hm : Pool.Move (system md5Hex) p l p')
    (hp : Pool.Each (Traced db₀) Fits p) : Pool.Each (Traced db₀) Fits p' :=
  hm.each (fun _ _ _ _ hf => spawn_fits hf)
    (fun _ _ _ _ _ _ _ hw hf hs => step_traced (system_step hs) hw hf) hp

theorem traced_after (md5Hex : List UInt16 → String) (db : Db)
    (miaoshaUser : Table MiaoshaUser Long MiaoshaUser.id) (bloomFileter : Long → Bool)
    (ls : List (Label Job Input)) :
    let p := System.after md5Hex (System.start db miaoshaUser bloomFileter) ls
    Traced db p.store p.log :=
  (Pool.invariant (system md5Hex) (fun _ _ _ hp hm => move_traced hm hp) ls
    (start_traced db miaoshaUser bloomFileter)).1

/-- The request behind a user's order of a goods. -/
def Requested (log : List Happening) (u g : Long) : Prop :=
  ∃ r now m, .handed r now m true ∈ log ∧ m.user.bind (·.id) = some u ∧ m.goodsId = g

theorem Traced.requested (h : Traced db₀ w log) {u g : Long} (hp : w.Posted u g) :
    Requested log u g := by
  obtain ⟨m, hm, hu, hg⟩ := hp
  obtain ⟨r, now, hr⟩ := h.queue m hm
  exact ⟨r, now, m, hr, hu, hg⟩

/-- **No order from nowhere.** Every row created since the start is of a user and a goods, and
goes back to a request that has handed over a message of that user for that goods. -/
theorem Traced.rows (h : Traced db₀ w log) :
    (∀ i ∈ db₀.newInfos w.shop.db,
      ∃ u g, i.userId = some u ∧ i.goodsId = some g ∧ Requested log u g) ∧
    (∀ o ∈ db₀.newOrders w.shop.db,
      ∃ u g, o.userId = some u ∧ o.goodsId = some g ∧ Requested log u g) := by
  constructor
  · intro i hi
    obtain ⟨u, g, hu, hg, hp⟩ := h.infos i hi
    exact ⟨u, g, hu, hg, h.requested hp⟩
  · intro o ho
    obtain ⟨u, g, hu, hg, hp⟩ := h.orders o ho
    exact ⟨u, g, hu, hg, h.requested hp⟩

end Provenance

end CfsShop
