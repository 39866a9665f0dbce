/-
The whole of the sale: any number of web instances with their worker threads,
their start-ups, logins, `do_miaosha` requests, and consumers of the queue, over one
database, one Redis and one broker.

Every call is cut where another may come between, and any of them may die
anywhere. What is said of the whole is said of the runs of `system`. A request
comes with its cookies and is handled on some free worker of its instance. The
interceptor puts the session into a field of that thread, where it stays until
the next request overwrites it.
-/
import CfsShop.Controller
import CfsShop.Ledger
import CfsShop.UserService

namespace CfsShop

/-! ## Requests and what they find -/

namespace UserInformation

def userToken : String := "user_token"

end UserInformation

structure Cookie where
  name : String
  value : String
  deriving DecidableEq

/-- The handler method a request is for, with its parameters. -/
inductive Handler
  | doMiaosha (goodsId : Long)
  | doLogin (loginVo : Option LoginVo)
  /-- Any other, none of which touches what is modelled here. -/
  | other
  deriving DecidableEq

/-- A request, and the instance it is sent to. -/
structure HttpRequest where
  node : Nat
  cookies : Option (List Cookie)
  handler : Handler
  deriving DecidableEq

namespace AccessInterceptor

def getCookieValue (cookies : Option (List Cookie)) (cookiName : String) : Option String :=
  (cookies.getD []).findSome? fun cookie =>
    if cookie.name = cookiName then some cookie.value else none

/-- The token a request comes with. -/
def cookieToken (r : HttpRequest) : Option String := getCookieValue r.cookies UserInformation.userToken

def getSeesionUser (tokenUser : String → Option SessionUser) (r : HttpRequest) : Option SessionUser :=
  match cookieToken r with
  | none => none
  | some token => if token.isEmpty then none else tokenUser token

theorem getSeesionUser_eq_some {tokenUser : String → Option SessionUser} {r : HttpRequest}
    {s : SessionUser} (h : getSeesionUser tokenUser r = some s) :
    ∃ token, cookieToken r = some token ∧ tokenUser token = some s := by
  unfold getSeesionUser at h
  split at h
  · cases h
  · next token ht =>
    split at h
    · cases h
    · exact ⟨token, ht, h⟩

end AccessInterceptor

/-- A worker thread of an instance. -/
structure Worker where
  node : Nat
  no : Nat
  deriving DecidableEq

/-- Everything that is shared, or outlives a request. -/
structure World where
  shop : Shop
  users : UserStore
  /-- `RMap` `token_user`. -/
  tokenUser : String → Option SessionUser
  /-- `UserContext.userHolder`, of each thread. -/
  userHolder : Worker → Option SessionUser
  busy : Worker → Bool
  /-- Of each instance. -/
  localOverMap : Nat → Option Long → Option Bool
  broker : List Message

namespace World

/-- What the requests of one instance see. -/
def web (w : World) (node : Nat) : Web := ⟨w.shop.redis, w.localOverMap node, w.broker⟩

def setWeb (w : World) (node : Nat) (v : Web) : World :=
  { w with
    shop := { w.shop with redis := v.redis }
    localOverMap := Function.update w.localOverMap node v.localOverMap
    broker := v.broker }

/-- What logins see. -/
def accounts (w : World) : Accounts := ⟨w.users, w.tokenUser, w.shop.redis.miaoShaUser⟩

def setAccounts (w : World) (a : Accounts) : World :=
  { w with
    shop := { w.shop with redis := { w.shop.redis with miaoShaUser := a.miaoShaUser } }
    users := a.users
    tokenUser := a.tokenUser }

def take (w : World) (k : Worker) : World := { w with busy := Function.update w.busy k true }

def release (w : World) (k : Worker) : World := { w with busy := Function.update w.busy k false }

/-- `UserContext.setUser` on a thread. -/
def setUser (w : World) (k : Worker) (user : Option SessionUser) : World :=
  { w with userHolder := Function.update w.userHolder k user }

/-- The queue, decoded. -/
def messages (w : World) : List MiaoshaMessage := w.broker.map (·.body)

/-- Before anything has started: nothing in Redis, nothing in the queue. -/
def initial (db : Db) (miaoshaUser : Table MiaoshaUser Long MiaoshaUser.id)
    (bloomFileter : Long → Bool) : World where
  shop := ⟨db, ⟨fun _ => none, fun _ => none, fun _ => none, fun _ => 0⟩⟩
  users := ⟨miaoshaUser, bloomFileter, fun _ => none, false⟩
  tokenUser := fun _ => none
  userHolder := fun _ => none
  busy := fun _ => false
  localOverMap := fun _ _ => none
  broker := []

@[simp] theorem broker_setWeb (w : World) (node : Nat) (v : Web) :
    (w.setWeb node v).broker = v.broker := rfl

theorem localOverMap_setWeb (w : World) (node node' : Nat) (v : Web) :
    (w.setWeb node v).localOverMap node' =
      if node' = node then v.localOverMap else w.localOverMap node' :=
  Function.update_apply ..

end World

/-! ## The start-up, cut -/

/-- Where an `afterPropertiesSet` stands. -/
inductive StartUp
  | listGoodsVo
  | load (goodsList : List GoodsVo)
  | mark (goods : GoodsVo) (rest : List GoodsVo)
  | finished (result : Except Ex Unit)

namespace StartUp

def step (db : Db) (w : Web) : StartUp → Option (Web × StartUp)
  | listGoodsVo => some (w, load (GoodsMapper.listGoodsVo db))
  | load [] => some (w, finished (.ok ()))
  | load (goods :: rest) =>
    match goods.stockCount with
    | none => some (w, finished (.error .nullPointer))
    | some stock => some (w.setCounter stock, mark goods rest)
  | mark goods rest =>
    some ({ w with localOverMap := Function.update w.localOverMap goods.id (some false) }, load rest)
  | finished _ => none

/-- What one step can do. -/
inductive Step (db : Db) (w : Web) : StartUp → Web → StartUp → Prop
  | listed : Step db w listGoodsVo w (load (GoodsMapper.listGoodsVo db))
  | started : Step db w (load []) w (finished (.ok ()))
  | failed {goods rest} : goods.stockCount = none →
      Step db w (load (goods :: rest)) w (finished (.error .nullPointer))
  | counted {goods rest stock} : goods.stockCount = some stock →
      Step db w (load (goods :: rest)) (w.setCounter stock) (mark goods rest)
  | marked {goods rest} : Step db w (mark goods rest)
      { w with localOverMap := Function.update w.localOverMap goods.id (some false) } (load rest)

theorem step_spec {db : Db} {w w' : Web} {f f' : StartUp} (h : f.step db w = some (w', f')) :
    Step db w f w' f' := by
  cases f with
  | listGoodsVo =>
    cases h
    exact .listed
  | load goodsList =>
    cases goodsList with
    | nil =>
      cases h
      exact .started
    | cons goods rest =>
      simp only [step] at h
      split at h
      · next hs =>
        cases h
        exact .failed hs
      · next stock hs =>
        cases h
        exact .counted hs
  | mark goods rest =>
    cases h
    exact .marked
  | finished r => cases h

/-- The cut is faithful: a start-up that nobody disturbs does what `afterPropertiesSet` does. -/
theorem alone (db : Db) (goodsList : List GoodsVo) (w : Web) :
    Relation.ReflTransGen (fun a b : Web × StartUp => a.2.step db a.1 = some b) (w, load goodsList)
      (((MiaoShaController.afterPropertiesSet goodsList).exec w).2,
        finished ((MiaoShaController.afterPropertiesSet goodsList).exec w).1) := by
  induction goodsList generalizing w with
  | nil => exact .single rfl
  | cons goods rest ih =>
    rw [MiaoShaController.afterPropertiesSet, List.forM_eq_forM, List.forM_cons, Prog.exec_bind]
    cases hs : goods.stockCount with
    | none =>
      have hload : (MiaoShaController.loadGoods goods).exec w = (.error .nullPointer, w) := by
        simp only [MiaoShaController.loadGoods, Prog.exec_bind, hs, exec_nonNull_none]
      rw [hload]
      exact .single (by simp only [step, hs])
    | some stock =>
      rw [MiaoShaController.exec_loadGoods hs w]
      refine .head (b := (w.setCounter stock, mark goods rest)) (by simp only [step, hs]) ?_
      exact .head rfl (ih _)

end StartUp

/-! ## All of it -/

/-- Where a thread stands. -/
inductive Job
  /-- A request that has no worker yet. -/
  | queued (r : HttpRequest)
  | preHandle (r : HttpRequest) (k : Worker)
  /-- The interceptor has let it through. -/
  | handler (r : HttpRequest) (k : Worker)
  | miaosha (r : HttpRequest) (k : Worker) (f : Request)
  | login (r : HttpRequest) (k : Worker) (f : Login)
  | answered
  | startUp (node : Nat) (f : StartUp)
  /-- Messages the broker is about to hand to the listener. -/
  | pulled (msgs : List MiaoshaMessage)
  | consumer (f : Frame)

/-- What the environment decides with each step. -/
structure Input where
  /-- Which worker takes the request. -/
  worker : Nat := 0
  /-- Whether RocketMQ takes a message. -/
  up : Bool := true
  now : Int := 0
  /-- What `UUIDUtil.uuid` would give. -/
  token : String := ""
  leaseOver : Bool := false

/-- The history. -/
inductive Happening
  | arrived (r : HttpRequest)
  | login (e : LoginEvent)
  /-- A message handed to `MQSender`, and whether RocketMQ took it. -/
  | handed (r : HttpRequest) (now : Int) (m : MiaoshaMessage) (taken : Bool)
  | answered (r : HttpRequest) (a : Answer)
  | started (node : Nat)
  | delivered (msgs : List MiaoshaMessage)
  deriving DecidableEq

/-- The message a request hands over with its next step. -/
def HttpRequest.hands (r : HttpRequest) (x : Input) : Request → List Happening
  | .send c _ => [.handed r x.now ⟨c.user, c.goodsId⟩ x.up]
  | _ => []

namespace StartUp

def events (node : Nat) : StartUp → List Happening
  | finished (.ok ()) => [.started node]
  | _ => []

end StartUp

namespace Job

/-- One access to what is shared, and the code up to the next one. -/
def step (md5Hex : List UInt16 → String) (x : Input) (w : World) :
    Job → Option (World × Job × List Happening)
  | queued r =>
    let k : Worker := ⟨r.node, x.worker⟩
    if w.busy k then none else some (w.take k, preHandle r k, [.arrived r])
  | preHandle r k =>
    some (w.setUser k (AccessInterceptor.getSeesionUser w.tokenUser r), handler r k, [])
  | handler r k =>
    match r.handler with
    | .doMiaosha goodsId => some (w, miaosha r k (.start (w.userHolder k) goodsId), [])
    | .doLogin loginVo => some (w, login r k (.start loginVo), [])
    | .other => some (w.release k, answered, [])
  | miaosha _ k (.finished _) => some (w.release k, answered, [])
  | miaosha r k f =>
    match f.step true x.up (w.web r.node) with
    | some (v, f', as) =>
      some (w.setWeb r.node v, miaosha r k f', r.hands x f ++ as.map (.answered r))
    | none => none
  | login _ k (.returned _) | login _ k (.threw _) => some (w.release k, answered, [])
  | login r k f =>
    match f.step md5Hex x.leaseOver x.token w.accounts with
    | some (a, f', es) => some (w.setAccounts a, login r k f', es.map .login)
    | none => none
  | answered => none
  | startUp node f =>
    match f.step w.shop.db (w.web node) with
    | some (v, f') => some (w.setWeb node v, startUp node f', f'.events node)
    | none => none
  | pulled msgs =>
    if ∀ m ∈ msgs, m ∈ w.messages then some (w, consumer (.loop msgs), [.delivered msgs]) else none
  | consumer f =>
    match f.step x.now w.shop with
    | some (shop, f', _) => some ({ w with shop }, consumer f', [])
    | none => none

/-- The worker a request is on. -/
def worker : Job → Option Worker
  | preHandle _ k | handler _ k | miaosha _ k _ | login _ k _ => some k
  | _ => none

/-- What one step can do. -/
inductive Step (md5Hex : List UInt16 → String) (x : Input) (w : World) :
    Job → World → Job → List Happening → Prop
  | arrived {r} : w.busy ⟨r.node, x.worker⟩ = false →
      Step md5Hex x w (queued r) (w.take ⟨r.node, x.worker⟩) (preHandle r ⟨r.node, x.worker⟩)
        [.arrived r]
  | preHandled {r k} : Step md5Hex x w (preHandle r k)
      (w.setUser k (AccessInterceptor.getSeesionUser w.tokenUser r)) (handler r k) []
  | entered {r k goodsId} : r.handler = .doMiaosha goodsId →
      Step md5Hex x w (handler r k) w (miaosha r k (.start (w.userHolder k) goodsId)) []
  | loginEntered {r k loginVo} : r.handler = .doLogin loginVo →
      Step md5Hex x w (handler r k) w (login r k (.start loginVo)) []
  | released {j k} : j.worker = some k → Step md5Hex x w j (w.release k) answered []
  | served {r k f v f' as} : Request.Step true x.up (w.web r.node) f v f' as →
      Step md5Hex x w (miaosha r k f) (w.setWeb r.node v) (miaosha r k f')
        (r.hands x f ++ as.map (.answered r))
  | loggedIn {r k f a f' es} : Login.Step md5Hex x.leaseOver x.token w.accounts f a f' es →
      Step md5Hex x w (login r k f) (w.setAccounts a) (login r k f') (es.map .login)
  | loaded {node f v f'} : StartUp.Step w.shop.db (w.web node) f v f' →
      Step md5Hex x w (startUp node f) (w.setWeb node v) (startUp node f') (f'.events node)
  | delivered {msgs} : (∀ m ∈ msgs, m ∈ w.messages) →
      Step md5Hex x w (pulled msgs) w (consumer (.loop msgs)) [.delivered msgs]
  | consumed {f shop f' es} : Frame.Step x.now w.shop f shop f' es →
      Step md5Hex x w (consumer f) { w with shop } (consumer f') []

variable {md5Hex : List UInt16 → String} {x : Input} {w w' : World}

theorem step_miaosha {r : HttpRequest} {k : Worker} {f : Request} {j' : Job} {es : List Happening}
    (h : (miaosha r k f).step md5Hex x w = some (w', j', es)) :
    Step md5Hex x w (miaosha r k f) w' j' es := by
  have hgo : ∀ {f : Request}, (match f.step true x.up (w.web r.node) with
      | some (v, f', as) =>
        some (w.setWeb r.node v, miaosha r k f', r.hands x f ++ as.map (.answered r))
      | none => none) = some (w', j', es) → Step md5Hex x w (miaosha r k f) w' j' es := by
    intro f h
    split at h
    · next hs =>
      cases h
      exact .served (Request.step_spec hs)
    · cases h
  cases f with
  | finished result =>
    cases h
    exact .released rfl
  | start s g => exact hgo h
  | decrement c => exact hgo h
  | putOver c n => exact hgo h
  | testOver c n => exact hgo h
  | getOrder c n => exact hgo h
  | send c n => exact hgo h

theorem step_login {r : HttpRequest} {k : Worker} {f : Login} {j' : Job} {es : List Happening}
    (h : (login r k f).step md5Hex x w = some (w', j', es)) :
    Step md5Hex x w (login r k f) w' j' es := by
  have hgo : ∀ {f : Login}, (match f.step md5Hex x.leaseOver x.token w.accounts with
      | some (a, f', es) => some (w.setAccounts a, login r k f', es.map .login)
      | none => none) = some (w', j', es) → Step md5Hex x w (login r k f) w' j' es := by
    intro f h
    split at h
    · next hs =>
      cases h
      exact .loggedIn (Login.step_spec hs)
    · cases h
  cases f with
  | returned token =>
    cases h
    exact .released rfl
  | threw e =>
    cases h
    exact .released rfl
  | start loginVo => exact hgo h
  | getById a f => exact hgo h
  | putToken a user t => exact hgo h
  | putUser a user t => exact hgo h

/-- The cut code does nothing else. -/
theorem step_spec {j j' : Job} {es : List Happening} (h : j.step md5Hex x w = some (w', j', es)) :
    Step md5Hex x w j w' j' es := by
  cases j with
  | queued r =>
    simp only [step] at h
    split at h
    · cases h
    · next hb =>
      cases h
      exact .arrived (by simpa using hb)
  | preHandle r k =>
    cases h
    exact .preHandled
  | handler r k =>
    simp only [step] at h
    split at h
    · next hr =>
      cases h
      exact .entered hr
    · next hr =>
      cases h
      exact .loginEntered hr
    · cases h
      exact .released rfl
  | miaosha r k f => exact step_miaosha h
  | login r k f => exact step_login h
  | answered => cases h
  | startUp node f =>
    simp only [step] at h
    split at h
    · next hs =>
      cases h
      exact .loaded (StartUp.step_spec hs)
    · cases h
  | pulled msgs =>
    simp only [step] at h
    split at h
    · next hm =>
      cases h
      exact .delivered hm
    · cases h
  | consumer f =>
    simp only [step] at h
    split at h
    · next hs =>
      cases h
      exact .consumed (Frame.step_spec hs)
    · cases h

end Job

/-! ## Who touches what -/

/-- A request leaves the records alone. -/
theorem Request.Step.miaoshaOrder {marked up : Bool} {w w' : Web} {f f' : Request} {es : List Answer}
    (h : Step marked up w f w' f' es) : w'.redis.miaoshaOrder = w.redis.miaoshaOrder := by
  cases h <;> rfl

theorem StartUp.Step.miaoshaOrder {db : Db} {w w' : Web} {f f' : StartUp} (h : Step db w f w' f') :
    w'.redis.miaoshaOrder = w.redis.miaoshaOrder := by
  cases h <;> rfl

/-- Only consumers touch the records. -/
theorem Job.Step.records {md5Hex : List UInt16 → String} {x : Input} {w w' : World} {j j' : Job}
    {es : List Happening} (h : Step md5Hex x w j w' j' es) :
    (∃ f f' evs, j = .consumer f ∧ j' = .consumer f' ∧ Frame.Step x.now w.shop f w'.shop f' evs ∧
      w' = { w with shop := w'.shop } ∧ es = []) ∨
      w'.shop.db = w.shop.db ∧ w'.shop.redis.miaoshaOrder = w.shop.redis.miaoshaOrder ∧
        ∀ f, j' = .consumer f → ∃ msgs, f = .loop msgs := by
  cases h with
  | consumed hs => exact .inl ⟨_, _, _, rfl, rfl, hs, rfl, rfl⟩
  | served hs => exact .inr ⟨rfl, hs.miaoshaOrder, by simp⟩
  | loaded hs => exact .inr ⟨rfl, hs.miaoshaOrder, by simp⟩
  | delivered => exact .inr ⟨rfl, rfl, fun f hf => ⟨_, (Job.consumer.inj hf).symm⟩⟩
  | _ => exact .inr ⟨rfl, rfl, by simp⟩

/-- Who reports what. -/
inductive Job.Reports (md5Hex : List UInt16 → String) (x : Input) (w : World) : Job → Happening → Prop
  | arrived {r} : Reports md5Hex x w (queued r) (.arrived r)
  | login {r k f a f' es e} : Login.Step md5Hex x.leaseOver x.token w.accounts f a f' es → e ∈ es →
      Reports md5Hex x w (login r k f) (.login e)
  | handed {r k c n} : Reports md5Hex x w (miaosha r k (.send c n))
      (.handed r x.now ⟨c.user, c.goodsId⟩ x.up)
  | answered {r k f v f' as a} : Request.Step true x.up (w.web r.node) f v f' as → a ∈ as →
      Reports md5Hex x w (miaosha r k f) (.answered r a)
  | started {node} : Reports md5Hex x w (startUp node (.load [])) (.started node)
  | delivered {msgs} : Reports md5Hex x w (pulled msgs) (.delivered msgs)

theorem Job.Step.reports {md5Hex : List UInt16 → String} {x : Input} {w w' : World} {j j' : Job}
    {es : List Happening} (h : Step md5Hex x w j w' j' es) {e : Happening} (he : e ∈ es) :
    Reports md5Hex x w j e := by
  cases h with
  | arrived =>
    rw [List.mem_singleton] at he
    subst he
    exact .arrived
  | @served r k f v f' as hs =>
    rcases List.mem_append.1 he with he | he
    · cases f with
      | send c n =>
        unfold HttpRequest.hands at he
        rw [List.mem_singleton] at he
        subst he
        exact .handed
      | _ => cases he
    · obtain ⟨a, ha, rfl⟩ := List.mem_map.1 he
      exact .answered hs ha
  | loggedIn hs =>
    obtain ⟨e, hmem, rfl⟩ := List.mem_map.1 he
    exact .login hs hmem
  | loaded hs =>
    cases hs with
    | started =>
      rw [StartUp.events, List.mem_singleton] at he
      subst he
      exact .started
    | _ => cases he
  | delivered =>
    rw [List.mem_singleton] at he
    subst he
    exact .delivered
  | _ => cases he

/-- A goods as it is offered, whatever is left of it. -/
def GoodsVo.terms (vo : GoodsVo) : GoodsVo := { vo with stockCount := none }

/-- What is in the sale, and on what terms. -/
def Db.catalogue (db : Db) : List GoodsVo := (GoodsMapper.listGoodsVo db).map GoodsVo.terms

theorem GoodsMapper.catalogue_reduceStock (db : Db) (g : MiaoshaGoods) :
    (reduceStock db g).2.catalogue = db.catalogue := by
  simp only [Db.catalogue, listGoodsVo, reduceStock, Table.update, List.map_map]
  apply List.map_congr_left
  intro mg _
  simp only [Function.comp, takeOne]
  split <;> rfl

/-- Consumers sell, and change nothing else about the goods. -/
theorem Frame.Step.catalogue {now : Date} {s s' : Shop} {f f' : Frame} {es : List Event}
    (h : Step now s f s' f' es) : s'.db.catalogue = s.db.catalogue := by
  cases h with
  | reduced => exact GoodsMapper.catalogue_reduceStock _ _
  | _ => rfl

theorem Job.Step.catalogue {md5Hex : List UInt16 → String} {x : Input} {w w' : World} {j j' : Job}
    {es : List Happening} (h : Step md5Hex x w j w' j' es) :
    w'.shop.db.catalogue = w.shop.db.catalogue := by
  rcases h.records with ⟨f, f', evs, -, -, hs, -⟩ | ⟨hdb, -⟩
  · exact hs.catalogue
  · rw [hdb]

/-- Requests, start-ups and deliveries come as they like. -/
def system (md5Hex : List UInt16 → String) : Machine World Job Input Happening where
  allows _ j := match j with
    | .queued _ | .startUp _ .listGoodsVo | .pulled _ => true
    | _ => false
  step := Job.step md5Hex

theorem system_step {md5Hex : List UInt16 → String} {x : Input} {w w' : World} {j j' : Job}
    {es : List Happening} (h : (system md5Hex).step x w j = some (w', j', es)) :
    Job.Step md5Hex x w j w' j' es := Job.step_spec h

/-- What may start. -/
theorem system_allows {md5Hex : List UInt16 → String} {w : World} {j : Job}
    (h : (system md5Hex).allows w j = true) :
    (∃ r, j = .queued r) ∨ (∃ node, j = .startUp node .listGoodsVo) ∨ ∃ msgs, j = .pulled msgs := by
  cases j with
  | queued r => exact .inl ⟨r, rfl⟩
  | pulled msgs => exact .inr (.inr ⟨msgs, rfl⟩)
  | startUp node f =>
    cases f with
    | listGoodsVo => exact .inr (.inl ⟨node, rfl⟩)
    | _ => cases h
  | _ => cases h

abbrev System := Pool World Job Happening

namespace System

/-- Nothing has started. -/
def start (db : Db) (miaoshaUser : Table MiaoshaUser Long MiaoshaUser.id)
    (bloomFileter : Long → Bool) : System :=
  ⟨World.initial db miaoshaUser bloomFileter, [], []⟩

/-- The state the labels lead to. Every reachable state is one of these. -/
def after (md5Hex : List UInt16 → String) (p : System) (ls : List (Label Job Input)) : System :=
  Run.run (Pool.exec (system md5Hex)) p ls

end System

/-! ## What is new -/

namespace Db

/-- The `order_info` rows created since `db₀`. -/
def newInfos (db₀ db : Db) : List OrderInfo := db.orderInfo.rows.drop db₀.orderInfo.rows.length

/-- The `miaosha_order` rows created since `db₀`. -/
def newOrders (db₀ db : Db) : List MiaoshaOrder :=
  db.miaoshaOrder.rows.drop db₀.miaoshaOrder.rows.length

theorem newInfos_self (db : Db) : db.newInfos db = [] := List.drop_length

theorem newOrders_self (db : Db) : db.newOrders db = [] := List.drop_length

variable {db₀ db : Db}

theorem newInfos_insert (h : db₀.Extends db) (o : OrderInfo) :
    db₀.newInfos (OrderMapper.insert db o).2 =
      db₀.newInfos db ++ [{ o with id := some db.orderInfo.next, deliveryAddrId := none }] := by
  simp only [newInfos, OrderMapper.insert, Serial.rows_insert]
  exact List.drop_append_of_le_length h.info.length_le

theorem newOrders_insert (h : db₀.Extends db) {o : MiaoshaOrder}
    {t : Table MiaoshaOrder (Long × Long) MiaoshaOrder.uidGid}
    (ht : db.miaoshaOrder.insert o = some t) :
    db₀.newOrders { db with miaoshaOrder := t } = db₀.newOrders db ++ [o] := by
  rw [Table.insert_eq_some] at ht
  simp only [newOrders, ht.2]
  exact List.drop_append_of_le_length h.orders.length_le

end Db

/-! ## A sale with one user -/

namespace OneSale

/-- `DigestUtils.md5Hex`, where it is needed below. -/
def md5Hex (s : List UInt16) : String :=
  if s = MD5Util.chars "12d3b1294a61a07da9b49b6e22b2cbd7f9c3" then "b7797cce01b4b131b433b6acf4add449"
  else ""

/-- The first user of the dump. -/
def user : MiaoshaUser where
  id := some 13000000000
  password := some "b7797cce01b4b131b433b6acf4add449"
  salt := some "1a2b3c"

def start (db : Db) : System := System.start db ⟨[user], by simp⟩ fun _ => true

/-- With the password 123456, as the login page sends it. -/
def loginVo : LoginVo := ⟨some "13000000000", some "d3b1294a61a07da9b49b6e22b2cbd7f9"⟩

/-- Instance `node` starts up, as thread `i`. -/
def startsUp (i node : Nat) : List (Label Job Input) :=
  .spawn (.startUp node .listGoodsVo) :: List.replicate 4 (.run i {})

/-- The user logs in and gets the token `t`. -/
def logsIn (i : Nat) : List (Label Job Input) :=
  .spawn (.queued ⟨0, none, .doLogin (some loginVo)⟩) ::
    (List.replicate 12 (.run i { token := "t" }) ++ List.replicate 3 (.run i {}))

/-- A request for goods 1 with the token. -/
def order : HttpRequest := ⟨0, some [⟨UserInformation.userToken, "t"⟩], .doMiaosha 1⟩

/-- The user orders at some time. -/
def buys (i : Nat) (now : Int) : List (Label Job Input) :=
  .spawn (.queued order) :: List.replicate 9 (.run i { now })

/-- The message is delivered and made into an order. -/
def consumes (i : Nat) : List (Label Job Input) :=
  .spawn (.pulled [⟨some user, 1⟩]) :: List.replicate 8 (.run i {})

/-- From the start-up to the order. -/
def all : List (Label Job Input) := startsUp 0 0 ++ logsIn 1 ++ buys 2 0 ++ consumes 3

end OneSale

end CfsShop
