/-
Whose session a request acts with. The identity goes from a login through the
user cache, two Redis maps and a cookie into a field of the worker thread, which
is never cleared, and from there into the request.

The field is safe because a worker does one request at a time, and the
interceptor sets it anew for each, to null if there is no session. The maps are
safe because a token is known only to the login that drew it until that has
returned. `Authentic.move` says that both stay so along every honest run.
-/
import CfsShop.System

namespace CfsShop

/-- The logins in the history. -/
def logins (log : List Happening) : List LoginEvent :=
  log.filterMap fun
    | .login e => some e
    | _ => none

@[simp] theorem logins_append (log log' : List Happening) :
    logins (log ++ log') = logins log ++ logins log' := List.filterMap_append

@[simp] theorem logins_map (es : List LoginEvent) : logins (es.map .login) = es := by
  rw [logins, List.filterMap_map]
  exact List.filterMap_some

theorem mem_logins {log : List Happening} {e : LoginEvent} : e ∈ logins log ↔ .login e ∈ log := by
  rw [logins, List.mem_filterMap]
  constructor
  · intro hx
    obtain ⟨h, hh, he⟩ := hx
    split at he
    · cases he
      exact hh
    · cases he
  · intro h
    exact ⟨.login e, h, rfl⟩

/-! ## Honest runs -/

namespace Job

/-- The token a request comes with, as long as it has not been looked up. -/
def cookie : Job → Option String
  | queued r | preHandle r _ => AccessInterceptor.cookieToken r
  | _ => none

/-- A login that has found its user, and checks the password next and draws a token. -/
def draws : Job → Bool
  | login _ _ (.getById _ (.returned (.ok (some _)))) => true
  | _ => false

end Job

/-- The tokens that were drawn, and by which logins. -/
def drawn (log : List Happening) : List (LoginVo × String) :=
  log.filterMap fun
    | .login (.drew vo token) => some (vo, token)
    | _ => none

theorem mem_drawn {log : List Happening} {vo : LoginVo} {token : String} :
    (vo, token) ∈ drawn log ↔ .login (.drew vo token) ∈ log := by
  rw [drawn, List.mem_filterMap]
  constructor
  · intro hx
    obtain ⟨h, hh, he⟩ := hx
    split at he
    · cases he
      exact hh
    · cases he
  · intro h
    exact ⟨_, h, rfl⟩

/-- Tokens are not guessed: nobody sends a token before every login that has drawn it has returned
it, and what `UUIDUtil.uuid` gives is on no request that is still to be looked up. -/
def Honest (p : System) : Label Job Input → Prop
  | .spawn (.queued r) => ∀ d ∈ drawn p.log, AccessInterceptor.cookieToken r = some d.2 →
      .login (.returned d.1 d.2) ∈ p.log
  | .run i x => ∀ t ∈ p.threads[i]?, t.frame.draws = true →
      ∀ u ∈ p.threads, u.frame.cookie ≠ some x.token
  | _ => True

instance (p : System) : (l : Label Job Input) → Decidable (Honest p l)
  | .spawn (.queued r) => inferInstanceAs (Decidable (∀ d ∈ drawn p.log,
      AccessInterceptor.cookieToken r = some d.2 → .login (.returned d.1 d.2) ∈ p.log))
  | .run i x => inferInstanceAs (Decidable (∀ t ∈ p.threads[i]?, t.frame.draws = true →
      ∀ u ∈ p.threads, u.frame.cookie ≠ some x.token))
  | .spawn (.preHandle ..) | .spawn (.handler ..) | .spawn (.miaosha ..) | .spawn (.login ..)
  | .spawn .answered | .spawn (.startUp ..) | .spawn (.pulled _) | .spawn (.consumer _) | .stop _ =>
    inferInstanceAs (Decidable True)

/-! ## Sessions -/

section

variable (md5Hex : List UInt16 → String) (miaoshaUser : Table MiaoshaUser Long MiaoshaUser.id)

/-- The request came with a token that a login of the user had returned before. -/
def Session (log : List Happening) (r : HttpRequest) (u : Long) : Prop :=
  ∃ vo token, Genuine md5Hex miaoshaUser vo u ∧ AccessInterceptor.cookieToken r = some token ∧
    [.login (.returned vo token), .arrived r].Sublist log

/-- The request acts for the user of its own session, on the goods it was sent for. -/
structure Acts (log : List Happening) (r : HttpRequest) (c : Call) : Prop where
  goods : r.handler = .doMiaosha c.goodsId
  session : Session md5Hex miaoshaUser log r c.userId
  user : ∃ user, c.user = some user ∧ user.id = some c.userId

end

namespace Request

/-- The locals of a request, once its user is known. -/
def call : Request → Option Call
  | decrement c | putOver c _ | testOver c _ | getOrder c _ | send c _ => some c
  | _ => none

namespace Step

variable {marked up : Bool} {w w' : Web} {f f' : Request} {es : List Answer}

/-- The user is read once, at the start. -/
theorem call (h : Step marked up w f w' f' es) {c : Call} (hc : f'.call = some c) :
    f.call = some c ∨ ∃ s g u, f = start s g ∧ s.bind (·.userId) = some u ∧
      c = ⟨u, w.redis.miaoShaUser u, g⟩ := by
  cases h with
  | loggedIn hu =>
    cases hc
    exact .inr ⟨_, _, _, rfl, hu, rfl⟩
  | tooLate | counted | passed | notYet => exact .inl hc
  | _ => cases hc

theorem not_start (h : Step marked up w f w' f' es) (s : Option SessionUser) (g : Long) :
    f' ≠ start s g := by
  cases h <;> simp

/-- An answer to a user is to the user of the request. -/
theorem answers (h : Step marked up w f w' f' es) {a : Answer} (ha : a ∈ es) {u : Long}
    (hu : a.userId = some u) : ∃ c, f.call = some c ∧ c.userId = u := by
  cases h with
  | noSession =>
    rw [List.mem_singleton] at ha
    subst ha
    cases hu
  | @put c | @unknown c | @refused c | @repeated c | @sent c | @unsent c =>
    rw [List.mem_singleton] at ha
    subst ha
    exact ⟨c, rfl, Option.some.inj hu⟩
  | loggedIn | tooLate | counted | passed | notYet => cases ha

end Step

end Request

section

variable {md5Hex : List UInt16 → String} {miaoshaUser : Table MiaoshaUser Long MiaoshaUser.id}

theorem Session.later {log : List Happening} {r : HttpRequest} {u : Long}
    (h : Session md5Hex miaoshaUser log r u) (es : List Happening) :
    Session md5Hex miaoshaUser (log ++ es) r u := by
  obtain ⟨vo, token, hvo, htoken, hsub⟩ := h
  exact ⟨vo, token, hvo, htoken, hsub.trans (List.sublist_append_left _ _)⟩

theorem Acts.later {log : List Happening} {r : HttpRequest} {c : Call}
    (h : Acts md5Hex miaoshaUser log r c) (es : List Happening) :
    Acts md5Hex miaoshaUser (log ++ es) r c :=
  ⟨h.goods, h.session.later es, h.user⟩

end

/-! ## One worker, one request -/

namespace Job

/-- One, if it is on the worker. -/
def holds (k : Worker) (j : Job) : Nat := if j.worker = some k then 1 else 0

namespace Step

variable {md5Hex : List UInt16 → String} {x : Input} {w w' : World} {j j' : Job}
  {es : List Happening}

/-- A worker is taken when it is free, and released by the one that has it. -/
theorem exclusive (h : Step md5Hex x w j w' j' es) (k : Worker) :
    j'.holds k + (w.busy k).toNat ≤ j.holds k + (w'.busy k).toNat := by
  cases h with
  | @arrived r hb =>
    by_cases hk : (⟨r.node, x.worker⟩ : Worker) = k
    · subst hk
      simp [holds, worker, hb, World.take]
    · simp [holds, worker, World.take, Function.update_of_ne (Ne.symm hk), hk]
  | @released j k' hj =>
    have hnone : Job.answered.holds k = 0 := rfl
    by_cases hk : k' = k
    · subst hk
      have hone : j.holds k' = 1 := by simp [holds, hj]
      have := (w.busy k').toNat_le
      omega
    · have hbusy : (w.release k').busy k = w.busy k := Function.update_of_ne (Ne.symm hk) _ _
      rw [hbusy]
      omega
  | _ => exact Nat.le_refl _

/-- Only the request on a worker sets its session. -/
theorem userHolder (h : Step md5Hex x w j w' j' es) (k : Worker) :
    w'.userHolder k = w.userHolder k ∨ j.worker = some k := by
  cases h with
  | @preHandled r k' =>
    by_cases hk : k' = k
    · subst hk
      exact .inr rfl
    · exact .inl (Function.update_of_ne (Ne.symm hk) _ _)
  | _ => exact .inl rfl

/-- A token that is drawn is the one the environment gives. -/
theorem drew (h : Step md5Hex x w j w' j' es) {vo : LoginVo} {token : String}
    (he : .login (.drew vo token) ∈ es) : j.draws = true ∧ token = x.token := by
  cases h.reports he with
  | login hs he =>
    cases hs with
    | verified =>
      simp only [List.mem_singleton, LoginEvent.drew.injEq] at he
      exact ⟨rfl, he.2⟩
    | userPut => simp at he
    | _ => cases he

end Step

end Job

/-! ## What holds along an honest run -/

section

variable (md5Hex : List UInt16 → String) (miaoshaUser : Table MiaoshaUser Long MiaoshaUser.id)

/-- What a thread may rely on. -/
def Fits (w : World) (log : List Happening) : Job → Prop
  | .queued r => ∀ vo token, AccessInterceptor.cookieToken r = some token →
      .login (.drew vo token) ∈ log → .login (.returned vo token) ∈ log
  | .preHandle r _ => ∀ vo token, AccessInterceptor.cookieToken r = some token →
      .login (.drew vo token) ∈ log → [.login (.returned vo token), .arrived r].Sublist log
  | .handler r k => ∀ u, (w.userHolder k).bind (·.userId) = some u →
      Session md5Hex miaoshaUser log r u
  | .miaosha r _ f =>
    (∀ s g, f = .start s g → r.handler = .doMiaosha g ∧
      ∀ u, s.bind (·.userId) = some u → Session md5Hex miaoshaUser log r u) ∧
    ∀ c, f.call = some c → Acts md5Hex miaoshaUser log r c
  | .login _ _ f => f.Sound md5Hex miaoshaUser (logins log)
  | _ => True

/-- A message was handed over by a request with a session of the user it names. -/
def Handed (log : List Happening) : Prop :=
  ∀ r now m taken, .handed r now m taken ∈ log → r.handler = .doMiaosha m.goodsId ∧
    ∃ user u vo token, m.user = some user ∧ user.id = some u ∧ Genuine md5Hex miaoshaUser vo u ∧
      AccessInterceptor.cookieToken r = some token ∧
      [.login (.returned vo token), .arrived r, .handed r now m taken].Sublist log

/-- Who is answered as a user has a session of that user. -/
def Answered (log : List Happening) : Prop :=
  ∀ r a u, .answered r a ∈ log → a.userId = some u → Session md5Hex miaoshaUser log r u

structure Authentic (p : System) : Prop where
  sound : p.store.accounts.Sound md5Hex miaoshaUser (logins p.log)
  exclusive : ∀ k, Pool.tally (Job.holds k) p.threads ≤ (p.store.busy k).toNat
  frames : ∀ t ∈ p.threads, Fits md5Hex miaoshaUser p.store p.log t.frame
  handed : Handed md5Hex miaoshaUser p.log
  answered : Answered md5Hex miaoshaUser p.log

end

section

variable {md5Hex : List UInt16 → String} {miaoshaUser : Table MiaoshaUser Long MiaoshaUser.id}
  {x : Input} {w w' : World} {j j' : Job} {es log : List Happening}

/-- Another thread's step does not take away what a thread relies on. -/
theorem Fits.later (h : Fits md5Hex miaoshaUser w log j)
    (hdrew : ∀ vo token, .login (.drew vo token) ∈ es → j.cookie ≠ some token)
    (hholder : ∀ k, j.worker = some k → w'.userHolder k = w.userHolder k) :
    Fits md5Hex miaoshaUser w' (log ++ es) j := by
  cases j with
  | queued r =>
    intro vo token ht hd
    rcases List.mem_append.1 hd with hd | hd
    · exact List.mem_append_left _ (h vo token ht hd)
    · exact absurd ht (hdrew vo token hd)
  | preHandle r k =>
    intro vo token ht hd
    rcases List.mem_append.1 hd with hd | hd
    · exact (h vo token ht hd).trans (List.sublist_append_left _ _)
    · exact absurd ht (hdrew vo token hd)
  | handler r k =>
    intro u hu
    rw [hholder k rfl] at hu
    exact (h u hu).later es
  | miaosha r k f =>
    refine ⟨?_, fun c hc => (h.2 c hc).later es⟩
    intro s g hf
    obtain ⟨hr, hs⟩ := h.1 s g hf
    exact ⟨hr, fun u hu => (hs u hu).later es⟩
  | login r k f =>
    show f.Sound md5Hex miaoshaUser (logins (log ++ es))
    rw [logins_append]
    exact Login.Sound.later h _
  | _ => trivial

/-- What the thread that moves may rely on next. -/
theorem Job.Step.fits (h : Step md5Hex x w j w' j' es) (hj : Fits md5Hex miaoshaUser w log j)
    (hw : w.accounts.Sound md5Hex miaoshaUser (logins log)) :
    Fits md5Hex miaoshaUser w' (log ++ es) j' := by
  cases h with
  | @arrived r hb =>
    intro vo token ht hd
    simp only [List.mem_append, List.mem_singleton, reduceCtorEq, or_false] at hd
    have hret := hj vo token ht hd
    exact (List.singleton_sublist.2 hret).append (List.Sublist.refl _)
  | @preHandled r k =>
    rw [List.append_nil]
    intro u hu
    simp only [World.setUser, Function.update_self] at hu
    obtain ⟨s, hs, hsu⟩ := Option.bind_eq_some_iff.1 hu
    obtain ⟨token, ht, htok⟩ := AccessInterceptor.getSeesionUser_eq_some hs
    obtain ⟨vo, u', hd, hu', hvo⟩ := hw.tokens token s htok
    rw [hsu, Option.some.injEq] at hu'
    subst hu'
    exact ⟨vo, token, hvo, ht, hj vo token ht (mem_logins.1 hd)⟩
  | @entered r k g hr =>
    rw [List.append_nil]
    refine ⟨?_, fun c hc => by cases hc⟩
    intro s g' hf
    cases hf
    exact ⟨hr, hj⟩
  | loginEntered => trivial
  | released => trivial
  | @served r k f v f' as hs =>
    refine ⟨fun s g hf => absurd hf (hs.not_start s g), ?_⟩
    intro c hc
    rcases hs.call hc with hc | ⟨s, g, u, rfl, hu, rfl⟩
    · exact (hj.2 c hc).later _
    · obtain ⟨hr, hsession⟩ := hj.1 s g rfl
      have hsu := hsession u hu
      refine ⟨hr, hsu.later _, ?_⟩
      -- The login has put the user into Redis before it returned the token.
      obtain ⟨vo, token, hvo, -, hsub⟩ := hsu
      have hret : .login (.returned vo token) ∈ log := hsub.subset (by simp)
      obtain ⟨-, u', hvo', hsome⟩ := hw.returned vo token (mem_logins.2 hret)
      cases hvo.unique hvo'
      obtain ⟨user, huser⟩ := Option.isSome_iff_exists.1 hsome
      exact ⟨user, huser, hw.users u user huser⟩
  | @loggedIn r k f a f' les hs =>
    show f'.Sound md5Hex miaoshaUser (logins (log ++ les.map .login))
    rw [logins_append, logins_map]
    exact (hs.sound hw hj).2
  | loaded => trivial
  | delivered => trivial
  | consumed => trivial

/-- Nobody but a login touches the maps of the sessions. -/
theorem Job.Step.accounts (h : Step md5Hex x w j w' j' es) :
    (w'.accounts = w.accounts ∧ logins es = []) ∨
      ∃ r k f f' les, j = .login r k f ∧ es = les.map .login ∧
        Login.Step md5Hex x.leaseOver x.token w.accounts f w'.accounts f' les := by
  cases h with
  | @served r k f v f' as hs =>
    left
    constructor
    · have : v.redis.miaoShaUser = w.shop.redis.miaoShaUser := by cases hs <;> rfl
      simp only [World.accounts, World.setWeb, this]
    · rw [logins_append]
      have hhands : logins (r.hands x f) = [] := by
        unfold HttpRequest.hands
        split <;> rfl
      rw [hhands, logins, List.filterMap_map, List.nil_append]
      exact List.filterMap_eq_nil_iff.2 fun _ _ => rfl
  | @loaded node f v f' hs =>
    left
    constructor
    · have : v.redis.miaoShaUser = w.shop.redis.miaoShaUser := by cases hs <;> rfl
      simp only [World.accounts, World.setWeb, this]
    · unfold StartUp.events
      split <;> rfl
  | @consumed f shop f' evs hs =>
    left
    have : shop.redis.miaoShaUser = w.shop.redis.miaoShaUser := by cases hs <;> rfl
    exact ⟨by simp only [World.accounts, this], rfl⟩
  | loggedIn hs => exact .inr ⟨_, _, _, _, _, rfl, rfl, hs⟩
  | _ => exact .inl ⟨rfl, rfl⟩

theorem Job.Step.sound (h : Step md5Hex x w j w' j' es) (hj : Fits md5Hex miaoshaUser w log j)
    (hw : w.accounts.Sound md5Hex miaoshaUser (logins log)) :
    w'.accounts.Sound md5Hex miaoshaUser (logins (log ++ es)) := by
  rw [logins_append]
  rcases h.accounts with ⟨ha, he⟩ | ⟨r, k, f, f', les, rfl, rfl, hs⟩
  · rw [ha, he, List.append_nil]
    exact hw
  · rw [logins_map]
    exact (hs.sound hw hj).1

/-- What is handed over is handed over for the user of the session. -/
theorem Job.Step.handed (h : Step md5Hex x w j w' j' es) (hj : Fits md5Hex miaoshaUser w log j)
    (hlog : Handed md5Hex miaoshaUser log) : Handed md5Hex miaoshaUser (log ++ es) := by
  intro r now m taken hh
  rcases List.mem_append.1 hh with hh | hh
  · obtain ⟨hr, user, u, vo, token, hm, hu, hvo, ht, hsub⟩ := hlog r now m taken hh
    exact ⟨hr, user, u, vo, token, hm, hu, hvo, ht, hsub.trans (List.sublist_append_left _ _)⟩
  · cases h.reports hh with
    | @handed _ k c n =>
      obtain ⟨hgoods, ⟨vo, token, hvo, ht, hsub⟩, user, huser, hid⟩ := hj.2 c rfl
      refine ⟨hgoods, user, c.userId, vo, token, huser, hid, hvo, ht, ?_⟩
      exact hsub.append (List.singleton_sublist.2 hh)

theorem Job.Step.answered (h : Step md5Hex x w j w' j' es) (hj : Fits md5Hex miaoshaUser w log j)
    (hlog : Answered md5Hex miaoshaUser log) : Answered md5Hex miaoshaUser (log ++ es) := by
  intro r a u hh hu
  rcases List.mem_append.1 hh with hh | hh
  · exact (hlog r a u hh hu).later es
  · cases h.reports hh with
    | answered hs ha =>
      obtain ⟨c, hc, rfl⟩ := hs.answers ha hu
      exact (hj.2 c hc).session.later _

/-- Two requests are not on one worker. -/
theorem Authentic.apart {p : System} (h : Authentic md5Hex miaoshaUser p)
    {pre post : List (Thread Job)} {t u : Thread Job} (hp : p.threads = pre ++ t :: post)
    (hu : u ∈ pre ++ post) {k : Worker}
    (ht : t.frame.worker = some k) : u.frame.worker ≠ some k := by
  intro hk
  have hle : Pool.tally (Job.holds k) (pre ++ t :: post) ≤ 1 := by
    rw [← hp]
    exact (h.exclusive k).trans (p.store.busy k).toNat_le
  have hu0 := Pool.tally_apart hle (by simp [Job.holds, ht]) hu
  simp [Job.holds, hk] at hu0

/-- **An honest step keeps the sessions apart.** -/
theorem Authentic.move {p p' : System} {l : Label Job Input} (hm : Pool.Move (system md5Hex) p l p')
    (hp : Authentic md5Hex miaoshaUser p) (hl : Honest p l) : Authentic md5Hex miaoshaUser p' := by
  cases hm with
  | idle => exact hp
  | @spawn f hf =>
    refine ⟨hp.sound, ?_, ?_, hp.handed, hp.answered⟩
    · intro k
      have hk : Job.holds k f = 0 := by
        obtain ⟨r, rfl⟩ | ⟨node, rfl⟩ | ⟨msgs, rfl⟩ := system_allows hf <;> rfl
      rw [Pool.tally_snoc, hk]
      exact hp.exclusive k
    · rw [Run.forall_mem_snoc]
      refine ⟨hp.frames, ?_⟩
      obtain ⟨r, rfl⟩ | ⟨node, rfl⟩ | ⟨msgs, rfl⟩ := system_allows hf
      · exact fun vo token ht hd => hl (vo, token) (mem_drawn.2 hd) ht
      · trivial
      · trivial
  | @run pre f post x s f' es hth hs =>
    have hstep := system_step hs
    have hf : Fits md5Hex miaoshaUser p.store p.log f := hp.frames ⟨f, true⟩ (by simp [hth])
    refine ⟨hstep.sound hf hp.sound, ?_, ?_, hstep.handed hf hp.handed,
      hstep.answered hf hp.answered⟩
    · intro k
      have hle := hp.exclusive k
      have hex := hstep.exclusive k
      rw [hth, Pool.tally_split] at hle
      rw [Pool.tally_split]
      simp only at hle ⊢
      omega
    · have hother : ∀ u ∈ pre ++ post, Fits md5Hex miaoshaUser s (p.log ++ es) u.frame := by
        intro u hu
        have hmem : u ∈ p.threads := by
          rw [hth]
          exact Pool.mem_split _ hu
        refine (hp.frames u hmem).later ?_ ?_
        · intro vo token hd
          obtain ⟨hdraws, rfl⟩ := hstep.drew hd
          exact hl ⟨f, true⟩ (by simp [hth]) hdraws u hmem
        · intro k hk
          rcases hstep.userHolder k with he | he
          · exact he
          · exact absurd hk (hp.apart hth hu he)
      rw [Pool.forall_mem_split]
      exact ⟨hstep.fits hf hp.sound, hother⟩
  | @stop pre t post hth =>
    refine ⟨hp.sound, ?_, ?_, hp.handed, hp.answered⟩
    · intro k
      have hle := hp.exclusive k
      rw [hth, Pool.tally_split] at hle
      rw [Pool.tally_split]
      exact hle
    · have hframes := hp.frames
      rw [hth, Pool.forall_mem_split] at hframes
      rw [Pool.forall_mem_split]
      exact hframes

theorem Authentic.start (db : Db) (bloomFileter : Long → Bool) :
    Authentic md5Hex miaoshaUser (System.start db miaoshaUser bloomFileter) where
  sound :=
    { table := rfl
      cached := fun id user h => by cases h
      tokens := fun t su h => by cases h
      returned := fun vo t h => by cases h
      users := fun u user h => by cases h }
  exclusive := fun k => Nat.zero_le _
  frames := fun t h => by cases h
  handed := fun r now m taken h => by cases h
  answered := fun r a u h => by cases h

/-- What holds along every honest run. -/
theorem authentic_after (db : Db) (bloomFileter : Long → Bool) {ls : List (Label Job Input)}
    (h : Run.Along (Pool.exec (system md5Hex)) Honest (System.start db miaoshaUser bloomFileter) ls) :
    Authentic md5Hex miaoshaUser
      (System.after md5Hex (System.start db miaoshaUser bloomFileter) ls) := by
  have halways : Run.Always (Pool.exec (system md5Hex)) (Authentic md5Hex miaoshaUser)
      (System.start db miaoshaUser bloomFileter) ls :=
    h.always (fun p l hp hl => hp.move (Pool.exec_move (system md5Hex) p l) hl)
      (Authentic.start db bloomFileter)
  exact halways.last

end

end CfsShop
