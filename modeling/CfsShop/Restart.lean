/-
Starting a further instance during a sale.

A start-up sets the counter to the stock it has read from the database. The units
other requests were given for messages that are still under way are in that
stock, and are given out a second time. `restart_at_rest` has the runs in which
this does no harm: every start-up sets the counter while nothing is under way,
to a stock that is still the stock.
-/
import CfsShop.Provenance
import Mathlib.Data.List.Perm.Subperm

namespace CfsShop

/-! ## What is promised -/

/-- Messages a consumer has been given and has not taken from the stock for. -/
def Frame.due : Frame → Nat
  | loop msgs => msgs.length
  | getMiaoshaOrder l | reduceStock l => l.rest.length + 1
  | insert l | lastInsertId l _ | insertMiaoshaOrder l _ | putMiaoshaOrder l _ | setGoodsOver l =>
    l.rest.length
  | threw _ => 0

/-- Units a thread may yet turn into orders: one for a request that was counted in, one for each
message a consumer has still to do. -/
def Job.promised : Job → Nat
  | miaosha _ _ (.testOver ..) | miaosha _ _ (.getOrder ..) | miaosha _ _ (.send ..) => 1
  | consumer f => f.due
  | _ => 0

/-- Every message delivered so far. -/
def deliveredIn (log : List Happening) : List MiaoshaMessage :=
  log.flatMap fun
    | .delivered msgs => msgs
    | _ => []

theorem deliveredIn_append (log es : List Happening) :
    deliveredIn (log ++ es) = deliveredIn log ++ deliveredIn es := List.flatMap_append

namespace World

/-- The pre-deduction counter. -/
def counter (w : World) : Int := w.shop.redis.atomicLong MiaoShaController.stockName

/-- The stock of a goods is not negative. -/
def NonNeg (w : World) (g : Long) : Prop := ∀ n, w.shop.db.stock (some g) = some n → 0 ≤ n

end World

namespace System

/-- Messages of the queue that were not delivered yet. -/
def undelivered (p : System) : Nat := p.store.messages.length - (deliveredIn p.log).length

/-- Units that are under way, with a request, in the queue or with a consumer. -/
def promised (p : System) : Nat := Pool.live Job.promised p.threads + p.undelivered

end System

/-! ## Conditions on a step -/

/-- A thread about to hand messages to the listener has none that was delivered as often as it
was sent. -/
def Job.Once (p : System) (_ : Input) : Job → Prop
  | pulled msgs => (deliveredIn p.log ++ msgs).Subperm p.store.messages
  | _ => True

instance (p : System) (x : Input) : (j : Job) → Decidable (j.Once p x)
  | .pulled msgs => inferInstanceAs (Decidable ((deliveredIn p.log ++ msgs).Subperm p.store.messages))
  | .queued _ | .preHandle .. | .handler .. | .miaosha .. | .login .. | .answered | .startUp ..
  | .consumer _ => inferInstanceAs (Decidable True)

/-- A start-up about to set the counter does so while nothing is under way, and the stock it
has read is the stock, and not negative. -/
def Job.AtRest (p : System) (_ : Input) : Job → Prop
  | startUp _ (.load (goods :: _)) => ∀ k ∈ goods.stockCount,
      p.promised = 0 ∧ 0 ≤ k ∧ p.store.shop.db.stock goods.id = some k
  | _ => True

instance (p : System) (x : Input) : (j : Job) → Decidable (j.AtRest p x)
  | .startUp _ (.load (goods :: _)) => inferInstanceAs (Decidable (∀ k ∈ goods.stockCount,
      p.promised = 0 ∧ 0 ≤ k ∧ p.store.shop.db.stock goods.id = some k))
  | .startUp _ .listGoodsVo | .startUp _ (.load []) | .startUp _ (.mark ..) | .startUp _ (.finished _)
  | .queued _ | .preHandle .. | .handler .. | .miaosha .. | .login .. | .answered | .pulled _
  | .consumer _ => inferInstanceAs (Decidable True)

/-- Each message is delivered at most once. -/
abbrev AtMostOnce : System → Label Job Input → Prop := Pool.Guarded fun p x j => j.Once p x

/-- Start-ups set the counter at rest. -/
abbrev LoadsAtRest : System → Label Job Input → Prop := Pool.Guarded fun p x j => j.AtRest p x

/-- Once an instance has started: what the counter has left and what is queued can be sold. -/
def Covered (g : Long) (p : System) : Prop :=
  (∃ node, .started node ∈ p.log) → ∀ n, p.store.shop.db.stock (some g) = some n →
    max p.store.counter 0 + p.undelivered ≤ n

/-! ## One step -/

namespace Frame.Step

variable {now : Date} {s s' : Shop} {f f' : Frame} {es : List Event}

/-- A consumer leaves the counter alone. -/
theorem atomicLong (h : Step now s f s' f' es) : s'.redis.atomicLong = s.redis.atomicLong := by
  cases h <;> rfl

/-- A unit taken from the stock is one that was due. -/
theorem due (h : Step now s f s' f' es) (P : Pick) : f'.due + reducedFor P es ≤ f.due := by
  cases h with
  | @reduced n l =>
    rw [reducedFor_reduced]
    have hle := Bool.toNat_le (P (some l.userId) (some l.goodsId))
    show l.rest.length + _ ≤ l.rest.length + 1
    omega
  | lookedUp _ _ _ hrest =>
    subst hrest
    exact Nat.le_refl _
  | failed | soldOut | duplicate => exact Nat.zero_le _
  | repeated | tooLate => exact Nat.le_succ _
  | _ => exact Nat.le_refl _

end Frame.Step

/-- A request takes a unit off the counter, carries it, and puts it into the queue. -/
theorem Request.Step.carries {up : Bool} {v v' : Web} {f f' : Request} {as : List Answer}
    (h : Request.Step true up v f v' f' as) (r : HttpRequest) (k : Worker) :
    max v'.counter 0 + (Job.miaosha r k f').promised + v'.broker.length ≤
      max v.counter 0 + (Job.miaosha r k f).promised + v.broker.length := by
  cases h with
  | tooLate hc =>
    show max (v.setCounter (v.counter - 1)).counter 0 + 0 + (v.broker.length : Int) ≤
      max v.counter 0 + 0 + v.broker.length
    rw [Web.counter_setCounter]
    omega
  | counted hc =>
    show max (v.setCounter (v.counter - 1)).counter 0 + 1 + (v.broker.length : Int) ≤
      max v.counter 0 + 0 + v.broker.length
    rw [Web.counter_setCounter]
    omega
  | sent =>
    rw [Web.counter_enqueue, Web.broker_enqueue, List.length_append, List.length_singleton]
    show max v.counter 0 + 0 + (v.broker.length + 1 : Nat) ≤
      max v.counter 0 + 1 + (v.broker.length : Int)
    omega
  | _ =>
    simp only [Job.promised, Web.counter_putOver, Web.broker_putOver]
    omega

namespace Job.Step

variable {md5Hex : List UInt16 → String} {x : Input} {w w' : World} {j j' : Job}
  {es : List Happening}

/-- Either a start-up sets the counter, or the step leaves no more promised than before, less what
it takes from the stock, plus what it delivers, which is counted off the queue. -/
theorem carries (h : Step md5Hex x w j w' j' es) (g : Long) :
    (∃ node goods rest k, j = .startUp node (.load (goods :: rest)) ∧ goods.stockCount = some k ∧
      j' = .startUp node (.mark goods rest) ∧ w'.counter = k ∧ w'.shop.db = w.shop.db ∧
      w'.messages = w.messages ∧ es = []) ∨
    ∃ r : Nat, w'.shop.db.stock (some g) = (w.shop.db.stock (some g)).map (· - (r : Int)) ∧
      (r = 0 ∨ r = 1 ∧ ∃ n, w.shop.db.stock (some g) = some n ∧ 0 < n) ∧
      max w'.counter 0 + j'.promised + w'.messages.length + r ≤
        max w.counter 0 + j.promised + w.messages.length + (deliveredIn es).length := by
  -- What a step that is not a consumer's has to show.
  have hkept : w'.shop.db = w.shop.db →
      max w'.counter 0 + j'.promised + w'.messages.length ≤
        max w.counter 0 + j.promised + w.messages.length + (deliveredIn es).length →
      ∃ r : Nat, w'.shop.db.stock (some g) = (w.shop.db.stock (some g)).map (· - (r : Int)) ∧
        (r = 0 ∨ r = 1 ∧ ∃ n, w.shop.db.stock (some g) = some n ∧ 0 < n) ∧
        max w'.counter 0 + j'.promised + w'.messages.length + r ≤
          max w.counter 0 + j.promised + w.messages.length + (deliveredIn es).length := by
    intro hdb hle
    refine ⟨0, ?_, .inl rfl, by omega⟩
    rw [hdb]
    simp
  cases h with
  | @served r k f v f' as hs =>
    refine .inr (hkept rfl ?_)
    have hle := hs.carries r k
    simp only [World.messages, World.broker_setWeb, List.length_map]
    show max v.counter 0 + _ + _ ≤
      max (w.web r.node).counter 0 + _ + ((w.web r.node).broker.length : Int) + _
    omega
  | @loaded node f v f' hs =>
    cases hs with
    | @counted goods rest stock hk =>
      exact .inl ⟨node, goods, rest, stock, rfl, hk, rfl, (w.web node).counter_setCounter stock, rfl,
        rfl, rfl⟩
    | _ =>
      refine .inr (hkept rfl ?_)
      show max w.counter 0 + 0 + (w.messages.length : Int) ≤
        max w.counter 0 + 0 + w.messages.length + _
      omega
  | @delivered msgs =>
    refine .inr (hkept rfl ?_)
    show max w.counter 0 + (msgs.length : Nat) + _ ≤
      max w.counter 0 + 0 + _ + ((msgs ++ []).length : Int)
    rw [List.append_nil]
    omega
  | @consumed f shop f' evs hs =>
    refine .inr ⟨reducedFor (forGoods g) evs, (hs.stock g).1, (hs.stock g).2, ?_⟩
    have hdue := hs.due (forGoods g)
    have hcounter : World.counter { w with shop } = w.counter := by
      unfold World.counter
      rw [hs.atomicLong]
    rw [hcounter]
    show max w.counter 0 + (f'.due : Int) + (w.messages.length : Int) + _ ≤
      max w.counter 0 + (f.due : Int) + w.messages.length + 0
    omega
  | _ =>
    refine .inr (hkept rfl ?_)
    show max w.counter 0 + (0 : Nat) + (w.messages.length : Int) ≤
      max w.counter 0 + _ + w.messages.length + _
    omega

/-- A stock that is not negative does not become so. -/
theorem nonNeg (h : Step md5Hex x w j w' j' es) {g : Long} (hw : w.NonNeg g) : w'.NonNeg g := by
  intro n hn
  rcases h.carries g with ⟨-, -, -, -, -, -, -, -, hdb, -⟩ | ⟨r, hstock, hr, -⟩
  · rw [hdb] at hn
    exact hw n hn
  · rw [hstock, Option.map_eq_some_iff] at hn
    obtain ⟨m, hm, rfl⟩ := hn
    have hpos := hw m hm
    rcases hr with rfl | ⟨rfl, m', hm', hlt⟩
    · omega
    · rw [hm, Option.some.injEq] at hm'
      omega

/-- What is delivered is what the thread had pulled. -/
theorem delivers (h : Step md5Hex x w j w' j' es) :
    (∃ msgs, j = .pulled msgs ∧ deliveredIn es = msgs) ∨ deliveredIn es = [] := by
  cases h with
  | @served r k f v f' as =>
    right
    rw [deliveredIn_append]
    have hhands : deliveredIn (r.hands x f) = [] := by
      unfold HttpRequest.hands
      split <;> rfl
    rw [hhands, List.nil_append]
    unfold deliveredIn
    rw [List.flatMap_map]
    exact List.flatMap_eq_nil_iff.2 fun a _ => rfl
  | loggedIn =>
    right
    unfold deliveredIn
    rw [List.flatMap_map]
    exact List.flatMap_eq_nil_iff.2 fun e _ => rfl
  | loaded =>
    right
    unfold StartUp.events
    split <;> rfl
  | @delivered msgs => exact .inl ⟨msgs, rfl, List.append_nil msgs⟩
  | _ => exact .inr rfl

end Job.Step

/-! ## Whole runs -/

namespace Restart

/-- The catalogue is the one goods; its stock is not negative once an instance has started. -/
structure Listed (g : Long) (w : World) (log : List Happening) : Prop where
  catalogue : w.shop.db.catalogue.map (·.id) = [some g]
  started : (∃ node, .started node ∈ log) → w.NonNeg g

/-- A start-up has the one goods before it, or has set the counter to a stock at rest. -/
def Fits (g : Long) (w : World) (_ : List Happening) : Job → Prop
  | .startUp _ (.load goodsList) => goodsList.map (·.id) = [some g] ∨ goodsList = [] ∧ w.NonNeg g
  | .startUp _ (.mark _ rest) => rest = [] ∧ w.NonNeg g
  | .startUp _ (.finished (.ok _)) => w.NonNeg g
  | _ => True

variable {md5Hex : List UInt16 → String} {x : Input} {w w' : World} {j j' : Job}
  {es log : List Happening} {g : Long} {p p' : System}

theorem Fits.later (h : Fits g w log j) (hn : w.NonNeg g → w'.NonNeg g) (log' : List Happening) :
    Fits g w' log' j := by
  cases j with
  | startUp node f =>
    cases f with
    | load goodsList => exact h.imp_right fun hl => ⟨hl.1, hn hl.2⟩
    | mark goods rest => exact ⟨h.1, hn h.2⟩
    | finished result =>
      cases result with
      | ok => exact hn h
      | error => trivial
    | listGoodsVo => trivial
  | _ => trivial

theorem fits_step (h : Job.Step md5Hex x p.store j w' j' es) (hw : Listed g p.store p.log)
    (hj : Fits g p.store p.log j) (hc : j.AtRest p x) : Fits g w' (p.log ++ es) j' := by
  cases h with
  | @loaded node f v f' hs =>
    cases hs with
    | listed =>
      left
      rw [← hw.catalogue, Db.catalogue, List.map_map]
      rfl
    | started =>
      rcases hj with hl | ⟨-, hn⟩
      · cases hl
      · exact hn
    | failed => trivial
    | @counted goods rest stock hk =>
      rcases hj with hl | ⟨hl, -⟩
      · rw [List.map_cons, List.cons.injEq, List.map_eq_nil_iff] at hl
        refine ⟨hl.2, ?_⟩
        obtain ⟨-, hpos, hstock⟩ := hc stock hk
        rw [hl.1] at hstock
        intro n hn
        have hn : p.store.shop.db.stock (some g) = some n := hn
        rw [hstock, Option.some.injEq] at hn
        omega
      · cases hl
    | marked => exact .inr hj
  | _ => trivial

theorem listed_step (h : Job.Step md5Hex x p.store j w' j' es) (hw : Listed g p.store p.log)
    (hj : Fits g p.store p.log j) : Listed g w' (p.log ++ es) where
  catalogue := by rw [h.catalogue, hw.catalogue]
  started := by
    intro h
    obtain ⟨node, hs⟩ := h
    refine h.nonNeg ?_
    rcases List.mem_append.1 hs with hs | hs
    · exact hw.started ⟨node, hs⟩
    · cases h.reports hs with
      | started =>
        rcases hj with hl | ⟨-, hn⟩
        · cases hl
        · exact hn

/-- What holds along every run that keeps to the conditions. -/
structure Inv (g : Long) (p : System) : Prop where
  listed : Pool.Each (Listed g) (Fits g) p
  once : (deliveredIn p.log).length ≤ p.store.messages.length
  bound : ∀ n, p.store.shop.db.stock (some g) = some n → max p.store.counter 0 + p.promised ≤ max n 0

theorem move_listed {l : Label Job Input} (hm : Pool.Move (system md5Hex) p l p')
    (hl : LoadsAtRest p l) (hp : Pool.Each (Listed g) (Fits g) p) :
    Pool.Each (Listed g) (Fits g) p' := by
  refine hm.each_guarded hl ?_ ?_ hp
  · intro j _ hj
    obtain ⟨r, rfl⟩ | ⟨node, rfl⟩ | ⟨msgs, rfl⟩ := system_allows hj <;> trivial
  · intro x j w' j' es hc hw hj hs
    have hstep := system_step hs
    exact ⟨listed_step hstep hw hj, fits_step hstep hw hj hc, fun i hi => hi.later hstep.nonNeg _⟩

/-- The queue has had everything that was delivered. -/
theorem once_step (h : Job.Step md5Hex x p.store j w' j' es) (hc : j.Once p x)
    (hp : (deliveredIn p.log).length ≤ p.store.messages.length) :
    (deliveredIn (p.log ++ es)).length ≤ w'.messages.length := by
  have hgrows : p.store.messages.length ≤ w'.messages.length := by
    rcases h.messages with he | ⟨r, m, he, -⟩ <;> simp [he]
  refine Nat.le_trans ?_ hgrows
  rw [deliveredIn_append]
  rcases h.delivers with ⟨msgs, rfl, he⟩ | he
  · rw [he]
    exact hc.length_le
  · rw [he, List.append_nil]
    exact hp

/-- A step of a thread, the others being `rest` together. -/
theorem bound_step (h : Job.Step md5Hex x p.store j w' j' es) (hlisted : Fits g p.store p.log j)
    (honce : (deliveredIn p.log).length ≤ p.store.messages.length)
    (honce' : (deliveredIn (p.log ++ es)).length ≤ w'.messages.length) (hc : j.AtRest p x) {rest : Nat}
    (hlive : Pool.live Job.promised p.threads = rest + j.promised)
    (hbound : ∀ n, p.store.shop.db.stock (some g) = some n →
      max p.store.counter 0 + p.promised ≤ max n 0) (n : Int)
    (hn : w'.shop.db.stock (some g) = some n) :
    max w'.counter 0 +
        ((rest + j'.promised + (w'.messages.length - (deliveredIn (p.log ++ es)).length) : Nat) : Int) ≤
      max n 0 := by
  have hpromised : p.promised =
      rest + j.promised + (p.store.messages.length - (deliveredIn p.log).length) := by
    rw [System.promised, hlive]
    rfl
  rcases h.carries g with ⟨node, goods, tail, k, rfl, hk, rfl, hcounter, hdb, hmsgs, rfl⟩ |
    ⟨r, hstock, hr, hle⟩
  · -- The counter is set: nothing was under way, and `k` is the stock.
    obtain ⟨hzero, -, hstock⟩ := hc k hk
    have hid : goods.id = some g := by
      rcases hlisted with hl | ⟨hl, -⟩
      · rw [List.map_cons, List.cons.injEq] at hl
        exact hl.1
      · cases hl
    rw [hid, ← hdb, hn, Option.some.injEq] at hstock
    rw [hcounter, hmsgs, List.append_nil]
    have hmark : (Job.startUp node (.mark goods tail)).promised = 0 := rfl
    omega
  · rw [hstock, Option.map_eq_some_iff] at hn
    obtain ⟨m, hm, rfl⟩ := hn
    have hm' := hbound m hm
    rw [deliveredIn_append, List.length_append] at honce' ⊢
    rcases hr with rfl | ⟨rfl, m', hpos, hlt⟩
    · omega
    · rw [hm, Option.some.injEq] at hpos
      omega

theorem Inv.move {l : Label Job Input} (hm : Pool.Move (system md5Hex) p l p') (hp : Inv g p)
    (honce : AtMostOnce p l) (hrest : LoadsAtRest p l) : Inv g p' := by
  have hlisted := move_listed hm hrest hp.listed
  cases hm with
  | idle => exact hp
  | @spawn j hj =>
    refine ⟨hlisted, hp.once, ?_⟩
    have hzero : j.promised = 0 := by
      obtain ⟨r, rfl⟩ | ⟨node, rfl⟩ | ⟨msgs, rfl⟩ := system_allows hj <;> rfl
    intro n hn
    have hbound := hp.bound n hn
    unfold System.promised at hbound ⊢
    rw [Pool.live_append, Pool.live_running, hzero]
    exact hbound
  | @run pre j post x w' j' es hth hs =>
    have hstep := system_step hs
    have hlater := once_step hstep (honce.of_run hth) hp.once
    refine ⟨hlisted, hlater, ?_⟩
    intro n hn
    have hlive : Pool.live Job.promised p.threads =
        Pool.live Job.promised pre + Pool.live Job.promised post + j.promised := by
      rw [hth, Pool.live_append, Pool.live_running]
      omega
    have hj : Fits g p.store p.log j := hp.listed.2 ⟨j, true⟩ (by simp [hth])
    have hle := bound_step hstep hj hp.once hlater (hrest.of_run hth) hlive hp.bound n hn
    unfold System.promised System.undelivered
    rw [Pool.live_append, Pool.live_running]
    simp only
    omega
  | @stop pre t post hth =>
    refine ⟨hlisted, hp.once, ?_⟩
    intro n hn
    have hbound := hp.bound n hn
    have hle := Pool.live_le_cons Job.promised t post
    unfold System.promised System.undelivered at hbound ⊢
    rw [hth, Pool.live_append] at hbound
    rw [Pool.live_append, Pool.live_stopped]
    simp only at hbound ⊢
    omega

theorem Inv.covered (hp : Inv g p) : Covered g p := by
  intro hstarted n hn
  have hbound := hp.bound n hn
  have hpos := hp.listed.1.started hstarted n hn
  unfold System.promised at hbound
  omega

theorem Inv.start {db : Db} (miaoshaUser : Table MiaoshaUser Long MiaoshaUser.id)
    (bloomFileter : Long → Bool) (h : db.catalogue.map (·.id) = [some g]) :
    Inv g (System.start db miaoshaUser bloomFileter) where
  listed := by
    refine ⟨⟨h, ?_⟩, ?_⟩
    · intro h
      obtain ⟨node, hs⟩ := h
      cases hs
    · intro t ht
      cases ht
  once := Nat.le_refl 0
  bound := by
    intro n _
    show max (0 : Int) 0 + ((0 + (0 - 0) : Nat) : Int) ≤ max n 0
    omega

end Restart

/-- **Starting an instance at rest.** With one goods in the sale, in every run of requests,
consumers and start-ups in which no message is delivered more than once, and in which a
start-up sets the counter only while nothing is under way, to the stock as it is: once an instance has
started, what the counter has left and what is queued never exceeds the stock. -/
theorem restart_at_rest (md5Hex : List UInt16 → String) (db : Db)
    (miaoshaUser : Table MiaoshaUser Long MiaoshaUser.id) (bloomFileter : Long → Bool)
    (ls : List (Label Job Input)) (vo : GoodsVo) (g : Long) (hone : GoodsMapper.listGoodsVo db = [vo])
    (hid : vo.id = some g)
    (honce : Run.Along (Pool.exec (system md5Hex)) AtMostOnce
      (System.start db miaoshaUser bloomFileter) ls)
    (hrest : Run.Along (Pool.exec (system md5Hex)) LoadsAtRest
      (System.start db miaoshaUser bloomFileter) ls) :
    Run.Always (Pool.exec (system md5Hex)) (Covered g)
      (System.start db miaoshaUser bloomFileter) ls := by
  have hcatalogue : db.catalogue.map (·.id) = [some g] := by
    rw [Db.catalogue, hone, ← hid]
    rfl
  have hboth := honce.and hrest
  have halways := hboth.always
    (fun p l hp hl => Restart.Inv.move (Pool.exec_move (system md5Hex) p l) hp hl.1 hl.2)
    (Restart.Inv.start miaoshaUser bloomFileter hcatalogue)
  exact halways.imp fun p hp => hp.covered

/-- Instance 0 starts, a user orders and is queued, and then instance 1 starts. -/
def OneSale.restarts : List (Label Job Input) := startsUp 0 0 ++ logsIn 1 ++ buys 2 0 ++ startsUp 3 1

/-- With one unit. The counter is back at 1, with one message in the queue and one unit in
stock. -/
theorem restart_promises_twice :
    let p := System.after OneSale.md5Hex (OneSale.start (Shop.one 1).db) OneSale.restarts
    (GoodsMapper.listGoodsVo (Shop.one 1).db).map (·.id) = [some 1] ∧
      Run.Along (Pool.exec (system OneSale.md5Hex)) AtMostOnce (OneSale.start (Shop.one 1).db)
        OneSale.restarts ∧
      p.store.counter = 1 ∧ p.undelivered = 1 ∧ p.store.shop.db.stock (some 1) = some 1 ∧
      ¬ Covered 1 p := by
  intro p
  have hstarted : .started 0 ∈ p.log := by decide +kernel
  have hcounter : p.store.counter = 1 := by decide +kernel
  have hqueued : p.undelivered = 1 := by decide +kernel
  have hstock : p.store.shop.db.stock (some 1) = some 1 := by decide +kernel
  refine ⟨by decide +kernel, by decide +kernel, hcounter, hqueued, hstock, ?_⟩
  intro h
  have hle := h ⟨0, hstarted⟩ 1 hstock
  rw [hcounter, hqueued] at hle
  omega

/-- With two units, and the second instance starting after the first order is through. -/
theorem restart_at_rest_after_one :
    Run.Always (Pool.exec (system OneSale.md5Hex)) (Covered 1) (OneSale.start (Shop.one 2).db)
      (OneSale.all ++ OneSale.startsUp 4 1) :=
  restart_at_rest OneSale.md5Hex (Shop.one 2).db ⟨[OneSale.user], by simp⟩ (fun _ => true)
    (OneSale.all ++ OneSale.startsUp 4 1) _ 1 rfl rfl (by decide +kernel) (by decide +kernel)

end CfsShop
