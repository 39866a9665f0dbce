/-
Every order belongs to a buyer who has logged in. `authenticated_buyer` puts
the two halves together: a row goes back to a request that has handed over a
message of its user (`Provenance`), and a request acts for the user whose token
it came with (`Sessions`).
-/
import CfsShop.Provenance
import CfsShop.Sessions

namespace CfsShop

section

variable (md5Hex : List UInt16 → String) (miaoshaUser : Table MiaoshaUser Long MiaoshaUser.id)

/-- A `do_miaosha` request for the goods was taken that came with a token which a login with the
number and the password of the user had returned before. -/
def Bought (log : List Happening) (u g : Long) : Prop :=
  ∃ vo token r now m, Genuine md5Hex miaoshaUser vo u ∧
    AccessInterceptor.cookieToken r = some token ∧ r.handler = .doMiaosha g ∧
    [.login (.returned vo token), .arrived r, .handed r now m true].Sublist log

/-- The request has a session of its own of the user it acts for. -/
def OwnSession (p : System) : Prop :=
  (∀ r a u, .answered r a ∈ p.log → a.userId = some u → Session md5Hex miaoshaUser p.log r u) ∧
  ∀ t ∈ p.threads, ∀ r k f c, t.frame = .miaosha r k f → f.call = some c →
    Session md5Hex miaoshaUser p.log r c.userId

end

variable {md5Hex : List UInt16 → String} {miaoshaUser : Table MiaoshaUser Long MiaoshaUser.id}

theorem Handed.bought {log : List Happening} (h : Handed md5Hex miaoshaUser log) {u g : Long}
    (hr : Provenance.Requested log u g) : Bought md5Hex miaoshaUser log u g := by
  obtain ⟨r, now, m, hh, hu, rfl⟩ := hr
  obtain ⟨hgoods, user, u', vo, token, hm, hid, hvo, ht, hsub⟩ := h r now m true hh
  have hu' : u' = u := by
    rw [hm, Option.bind_some, hid, Option.some.injEq] at hu
    exact hu
  subst hu'
  exact ⟨vo, token, r, now, m, hvo, ht, hgoods, hsub⟩

theorem Authentic.ownSession {p : System} (h : Authentic md5Hex miaoshaUser p) :
    OwnSession md5Hex miaoshaUser p := by
  refine ⟨h.answered, ?_⟩
  intro t ht r k f c hf hc
  have hfits := h.frames t ht
  rw [hf] at hfits
  exact (hfits.2 c hc).session

/-- **Every order belongs to an authenticated buyer.** In every state of every honest run, each
row of `order_info` and `miaosha_order` created since the start is of a user and a goods, and goes
back to a `do_miaosha` request for that goods whose own cookie is a token returned before by a login
with the number and the password of that user; and no request acts for a user except by its own
cookie. -/
theorem authenticated_buyer (md5Hex : List UInt16 → String) (db : Db)
    (miaoshaUser : Table MiaoshaUser Long MiaoshaUser.id) (bloomFileter : Long → Bool)
    (ls : List (Label Job Input))
    (h : Run.Along (Pool.exec (system md5Hex)) Honest (System.start db miaoshaUser bloomFileter) ls) :
    let p := System.after md5Hex (System.start db miaoshaUser bloomFileter) ls
    (∀ i ∈ db.newInfos p.store.shop.db,
      ∃ u g, i.userId = some u ∧ i.goodsId = some g ∧ Bought md5Hex miaoshaUser p.log u g) ∧
    (∀ o ∈ db.newOrders p.store.shop.db,
      ∃ u g, o.userId = some u ∧ o.goodsId = some g ∧ Bought md5Hex miaoshaUser p.log u g) ∧
    OwnSession md5Hex miaoshaUser p := by
  intro p
  have hauth : Authentic md5Hex miaoshaUser p := authentic_after db bloomFileter h
  have htraced := Provenance.traced_after md5Hex db miaoshaUser bloomFileter ls
  refine ⟨?_, ?_, hauth.ownSession⟩
  · intro i hi
    obtain ⟨u, g, hu, hg, hr⟩ := htraced.rows.1 i hi
    exact ⟨u, g, hu, hg, hauth.handed.bought hr⟩
  · intro o ho
    obtain ⟨u, g, hu, hg, hr⟩ := htraced.rows.2 o ho
    exact ⟨u, g, hu, hg, hauth.handed.bought hr⟩

/-- One user logs in, orders and gets the order, which goes back to that login. -/
theorem authenticated_buyer_of_one :
    Bought OneSale.md5Hex ⟨[OneSale.user], by simp⟩
      (System.after OneSale.md5Hex (OneSale.start (Shop.one 1).db) OneSale.all).log 13000000000 1 := by
  obtain ⟨-, horders, -⟩ := authenticated_buyer OneSale.md5Hex (Shop.one 1).db
    ⟨[OneSale.user], by simp⟩ (fun _ => true) OneSale.all (by decide +kernel)
  obtain ⟨u, g, hu, hg, hb⟩ := horders ⟨some 13000000000, some 1, some 1⟩ (by decide +kernel)
  cases hu
  cases hg
  exact hb

end CfsShop
