-- Sessions of the REST service: the commands of any connections, one after another, while somebody
-- else changes the users. A login with the password of a user gives a cookie that stands for him
-- for an hour. The law says for whom a command is served: for the user whose login gave its cookie
-- last, within that hour, and for nobody else.
import Aods.RestfulApi
import Aods.Runs

open machine std_map runs
open util.json (text)
open py.restful_frames (Command commandOf)

namespace py.restful_api

/-! ## Runs -/

/-- A command at its moment, or a write of the users by somebody else. -/
inductive Event where
  | command (m : Moment) (k : Bytes) (v : PyVal)
  | users (ui : StdMap Bytes)

/-- The history keeps the users as each command found them. -/
def step (x : Outside) : Handler State Event (StdMap Bytes) Empty
  | s, .command m k v => .ok (turn x m k v s, [s.db_ui])
  | s, .users ui => .ok ({ s with db_ui := ui }, [])

abbrev Entry := Event × List (StdMap Bytes)

/-- The service with no cookie. -/
def State.start (ui : StdMap Bytes) (dbs : Databases) : State := ⟨ui, ∅, dbs, [], []⟩

/-! ## Logins -/

/-- The value of a login has the password of what the database has for its user. -/
def Password (x : Outside) (v : PyVal) (ui : Option Bytes) (dUi : PyVal) : Prop :=
  ∃ buf pwd pwdBuf stored, ui = some buf ∧ buf ≠ [] ∧ x.loads buf = some dUi ∧
    v.item "pwd" = some (.str pwd) ∧
    x.encode pwd = some pwdBuf ∧ dUi.item "pwd" = some stored ∧
      stored.isText (x.sha256 pwdBuf) = true

/-- The value of a login names a user who is in the database, with his password. -/
def Admits (x : Outside) (m : Moment) (ui : StdMap Bytes) (v : PyVal) (name : Bytes) : Prop :=
  m.ui_down = false ∧ m.cookie_down = false ∧
    ∃ usr dUi, v.item "usr" = some usr ∧ x.redisText usr = some name ∧
      Password x v (ui.lookup name) dUi

/-- The entry is a login that gave the cookie to the user, at that moment. -/
def Gave (x : Outside) (cookie name : Bytes) (m : Moment) (e : Entry) : Prop :=
  ∃ k v ui, e = (.command m k v, [ui]) ∧ commandOf k = some .login ∧ Admits x m ui v name ∧
    x.sha256 m.time = cookie

/-- The entry gave the cookie to somebody. -/
def Gives (x : Outside) (cookie : Bytes) (e : Entry) : Prop := ∃ name m, Gave x cookie name m e

/-- The cookie stands for the user: the last login that gave it was his, and its hour is not
over. -/
def Session (x : Outside) (now : Nat) (cookie name : Bytes) (es : List Entry) : Prop :=
  ∃ m, Since (Gave x cookie name m) (Gives x cookie) es ∧ now < m.now + ttl

/-! ## Commands -/

/-- The name of the result of a handler. -/
def resultName : Command → String
  | .login => "login_result"
  | .query_pms => "query_pms_result"
  | .query_mi => "query_mi_result"
  | .query_update_detail => "query_update_result"
  | .query_server => "query_server_result"
  | .update_server => "update_server_result"
  | .delete_servers => "delete_servers_result"
  | .publish => "publish_result"

/-- What a handler tells those who are not logged in. -/
def loginFirst : Command → String
  | .publish => "Please authenticate first"
  | _ => "Please authen first"

/-- What a handler asks of `DbEngine` for a user, by its value. -/
def callFor (x : Outside) (c : Command) (v : PyVal) (usr : Bytes) : Option Call :=
  match c with
  | .login => none
  | .query_pms => some .queryProjectModules
  | .query_mi => do some (.queryModuleInfo (← v.item "project") (← v.item "module"))
  | .query_update_detail =>
    do some (.queryUpdateDetail (← v.item "project") (← v.item "module") (← v.item "version"))
  | .query_server => do some (.queryServer (← v.item "rids") (← x.decode usr))
  | .update_server => do some (.updateServer (← v.item "si") (← x.decode usr))
  | .delete_servers => do some (.deleteServers (← v.item "rids"))
  | .publish => do
    some (.publish (← v.item "project") (← v.item "module") (← v.item "version") (← v.item "gids")
      (← v.item "detail")
      (← v.item "code") (← v.item "hash") (← v.item "url") (← x.decode usr))

/-- The value shows the cookie. -/
def Shows (x : Outside) (v : PyVal) (key : Bytes) : Prop :=
  ∃ cookie, v.get "cookie" = some cookie ∧ cookie.truthy = true ∧ x.redisText cookie = some key

variable {x : Outside} {m : Moment} {k : Bytes} {v : PyVal} {s : State}
  {es : List Entry} {c : Command}

theorem turn_eq_checked (hc : commandOf k = some c) (hlogin : c ≠ .login) :
    turn x m k v s = checked x c (resultName c) (loginFirst c) (callFor x c) m v s := by
  unfold turn
  rw [hc]
  cases c with
  | login => exact absurd rfl hlogin
  | _ => rfl

theorem turn_login (hc : commandOf k = some .login) : turn x m k v s = login x m v s := by
  unfold turn
  rw [hc]

theorem turn_unknown (hc : commandOf k = none) : turn x m k v s = s := by
  unfold turn
  rw [hc]

/-! ## What a command does to the cookies -/

theorem served_keeps (x : Outside) (c : Command) (name : String) (m : Moment)
    (call : Option Call) (s : State) :
    (served x c name m call s).db_cookie = s.db_cookie ∧
      (served x c name m call s).db_ui = s.db_ui := by
  unfold served
  cases call with
  | none => exact ⟨rfl, rfl⟩
  | some call =>
    dsimp only
    split
    · exact ⟨rfl, rfl⟩
    · exact ⟨rfl, rfl⟩

theorem checked_keeps (x : Outside) (c : Command) (name detail : String)
    (call : PyVal → Bytes → Option Call) (m : Moment) (v : PyVal) (s : State) :
    (checked x c name detail call m v s).db_cookie = s.db_cookie ∧
      (checked x c name detail call m v s).db_ui = s.db_ui := by
  unfold checked
  split
  · exact ⟨rfl, rfl⟩
  split
  · exact ⟨rfl, rfl⟩
  split
  · split
    · exact ⟨rfl, rfl⟩
    · exact served_keeps x c name m _ s
  · exact ⟨rfl, rfl⟩

theorem grant_keeps_users (x : Outside) (m : Moment) (usr dUi : PyVal) (s : State) :
    (grant x m usr dUi s).db_ui = s.db_ui := by
  unfold grant
  dsimp only
  split
  · split
    · rfl
    · rfl
  · rfl

theorem grant_cookie {usr : PyVal} {name : Bytes} (hdown : m.cookie_down = false)
    (hname : x.redisText usr = some name) (dUi : PyVal) (s : State) :
    (grant x m usr dUi s).db_cookie = s.db_cookie.insert (x.sha256 m.time) (name, m.now + ttl) := by
  unfold grant
  rw [hdown, hname]
  dsimp only
  split
  · rfl
  · rfl

theorem grant_no_cookie {usr : PyVal} (h : m.cookie_down = true ∨ x.redisText usr = none)
    (dUi : PyVal) (s : State) :
    grant x m usr dUi s = s := by
  unfold grant
  dsimp only
  rcases h with h | h
  · rw [h]
  · rw [h]
    split
    · rename_i hnone
      cases hnone
    · rfl

/-- Behind the query a login gives a cookie for the password, and changes no cookie without it. -/
theorem loginAs_cases (x : Outside) (m : Moment) (v usr : PyVal) (ui : Option Bytes) (s : State) :
    (∃ dUi, Password x v ui dUi ∧ loginAs x m v usr ui s = grant x m usr dUi s) ∨
    ((∀ dUi, ¬ Password x v ui dUi) ∧ (loginAs x m v usr ui s).db_cookie = s.db_cookie ∧
      (loginAs x m v usr ui s).db_ui = s.db_ui) := by
  unfold loginAs
  split
  · rename_i hempty
    refine Or.inr ⟨?_, rfl, rfl⟩
    rintro dUi ⟨buf, _, _, _, rfl, hbuf, _⟩
    exact hbuf hempty
  rename_i b bs hsome
  have hui : ui = some (b :: bs) := by
    cases ui with
    | none => cases hsome
    | some buf => exact congrArg some hsome
  subst hui
  split
  · rename_i dUi pwd hloads hpwd
    split
    · rename_i buf stored hbuf hstored
      split
      · rename_i hwrong
        refine Or.inr ⟨?_, rfl, rfl⟩
        rintro dUi' ⟨_, pwd', buf', stored', hui, _, hloads', hpwd', hbuf', hstored', htext⟩
        cases hui
        cases hloads.symm.trans hloads'
        cases hpwd.symm.trans hpwd'
        cases hbuf.symm.trans hbuf'
        cases hstored.symm.trans hstored'
        rw [htext] at hwrong
        cases hwrong
      · rename_i hright
        rw [Bool.not_eq_true', Bool.not_eq_false] at hright
        exact Or.inl ⟨dUi, ⟨_, pwd, buf, stored, rfl, List.cons_ne_nil b bs, hloads, hpwd, hbuf,
          hstored, hright⟩, rfl⟩
    · rename_i hneither
      refine Or.inr ⟨?_, rfl, rfl⟩
      rintro dUi' ⟨_, pwd', buf', stored', hui, _, hloads', hpwd', hbuf', hstored', _⟩
      cases hui
      cases hloads.symm.trans hloads'
      cases hpwd.symm.trans hpwd'
      exact hneither buf' stored' hbuf' hstored'
  · rename_i hneither
    refine Or.inr ⟨?_, rfl, rfl⟩
    rintro dUi' ⟨_, pwd', _, _, hui, _, hloads', hpwd', _⟩
    cases hui
    exact hneither dUi' pwd' hloads' hpwd'

/-- A login gives a cookie to the user it admits, or changes no cookie. -/
theorem login_cookies (x : Outside) (m : Moment) (v : PyVal) (s : State) :
    (login x m v s).db_ui = s.db_ui ∧
    ((∃ name, Admits x m s.db_ui v name ∧
        (login x m v s).db_cookie = s.db_cookie.insert (x.sha256 m.time) (name, m.now + ttl)) ∨
      ((∀ name, ¬ Admits x m s.db_ui v name) ∧ (login x m v s).db_cookie = s.db_cookie)) := by
  unfold login
  split
  · rename_i hnone
    refine ⟨rfl, Or.inr ⟨?_, rfl⟩⟩
    rintro name ⟨_, _, usr, _, husr, _⟩
    rw [hnone] at husr
    cases husr
  rename_i usr husr
  rcases loginAs_cases x m v usr (s.queryUserInfo x m usr) s with ⟨dUi, hpassword, heq⟩ |
    ⟨hno, hcookie, hui⟩
  · rw [heq]
    refine ⟨grant_keeps_users x m usr dUi s, ?_⟩
    by_cases hdown : m.cookie_down = true
    · refine Or.inr ⟨?_, by rw [grant_no_cookie (Or.inl hdown)]⟩
      rintro name ⟨_, hup, _⟩
      rw [hdown] at hup
      cases hup
    rw [Bool.not_eq_true] at hdown
    -- the query gave a user, so that his name is a key of the database
    obtain ⟨buf, _, _, _, hquery, _⟩ := id hpassword
    unfold State.queryUserInfo at hquery hpassword
    split at hquery
    · cases hquery
    rename_i hup
    rw [if_neg hup] at hpassword
    rw [Bool.not_eq_true] at hup
    obtain ⟨name, hname, _⟩ := Option.bind_eq_some_iff.mp hquery
    rw [hname, Option.bind_some] at hpassword
    exact Or.inl ⟨name, ⟨hup, hdown, usr, dUi, husr, hname, hpassword⟩,
      grant_cookie hdown hname dUi s⟩
  · refine ⟨hui, Or.inr ⟨?_, hcookie⟩⟩
    rintro name ⟨hup, _, usr', dUi, husr', hname, hpassword⟩
    cases husr.symm.trans husr'
    apply hno dUi
    unfold State.queryUserInfo
    rw [hup, if_neg Bool.false_ne_true, hname]
    exact hpassword

/-! ## What the cookies stand for -/

theorem Password.unique {ui : Option Bytes} {dUi dUi' : PyVal} (h : Password x v ui dUi)
    (h' : Password x v ui dUi') :
    dUi = dUi' := by
  obtain ⟨buf, _, _, _, hui, _, hloads, _⟩ := h
  obtain ⟨buf', _, _, _, hui', _, hloads', _⟩ := h'
  cases hui.symm.trans hui'
  exact Option.some.inj (hloads.symm.trans hloads')

theorem Admits.unique {ui : StdMap Bytes} {name name' : Bytes} (h : Admits x m ui v name)
    (h' : Admits x m ui v name') :
    name = name' := by
  obtain ⟨_, _, usr, _, husr, hname, _⟩ := h
  obtain ⟨_, _, usr', _, husr', hname', _⟩ := h'
  cases husr.symm.trans husr'
  exact Option.some.inj (hname.symm.trans hname')

theorem gave_command {m' : Moment} {cookie name : Bytes} {ui : StdMap Bytes} :
    Gave x cookie name m' (.command m k v, [ui]) ↔
      m = m' ∧ commandOf k = some .login ∧ Admits x m ui v name ∧ x.sha256 m.time = cookie := by
  constructor
  · rintro ⟨k', v', ui', he, hrest⟩
    cases he
    exact ⟨rfl, hrest⟩
  · rintro ⟨rfl, hrest⟩
    exact ⟨k, v, ui, rfl, hrest⟩

/-- A cookie is in the database as the last login that gave it put it there. -/
def Kept (x : Outside) (es : List Entry) (s : State) : Prop :=
  ∀ cookie name until_, s.db_cookie.lookup cookie = some (name, until_) ↔
    ∃ m, Since (Gave x cookie name m) (Gives x cookie) es ∧ until_ = m.now + ttl

/-- An event that gives no cookie leaves them. -/
theorem Kept.other {e : Entry} {s' : State} (h : Kept x es s) (hno : ∀ cookie, ¬ Gives x cookie e)
    (hcookie : s'.db_cookie = s.db_cookie) : Kept x (e :: es) s' := by
  intro cookie name until_
  rw [hcookie, h cookie name until_]
  have hsince : ∀ m, Since (Gave x cookie name m) (Gives x cookie) (e :: es) ↔
      Since (Gave x cookie name m) (Gives x cookie) es := by
    intro m
    rw [since_cons]
    constructor
    · rintro (hgave | ⟨_, hsince⟩)
      · exact absurd ⟨name, m, hgave⟩ (hno cookie)
      · exact hsince
    · intro hsince
      exact Or.inr ⟨hno cookie, hsince⟩
  simp only [hsince]

theorem Kept.login {s' : State} {name : Bytes} (h : Kept x es s) (hk : commandOf k = some .login)
    (hadmits : Admits x m s.db_ui v name)
    (hcookie : s'.db_cookie = s.db_cookie.insert (x.sha256 m.time) (name, m.now + ttl)) :
    Kept x ((.command m k v, [s.db_ui]) :: es) s' := by
  intro cookie name' until_
  rw [hcookie, find_insert_some, h cookie name' until_]
  constructor
  · rintro (⟨rfl, hentry⟩ | ⟨hne, m', hsince, huntil⟩)
    · cases hentry
      exact ⟨m, since_cons.mpr (Or.inl (gave_command.mpr ⟨rfl, hk, hadmits, rfl⟩)), rfl⟩
    · refine ⟨m', since_cons.mpr (Or.inr ⟨?_, hsince⟩), huntil⟩
      rintro ⟨_, _, hgave⟩
      exact hne (gave_command.mp hgave).2.2.2.symm
  · rintro ⟨m', hsince, rfl⟩
    rcases since_cons.mp hsince with hgave | ⟨hno, hsince⟩
    · obtain ⟨rfl, _, hadmits', rfl⟩ := gave_command.mp hgave
      cases hadmits.unique hadmits'
      exact Or.inl ⟨rfl, rfl⟩
    · refine Or.inr ⟨?_, m', hsince, rfl⟩
      rintro rfl
      exact hno ⟨name, m, gave_command.mpr ⟨rfl, hk, hadmits, rfl⟩⟩

theorem Kept.turn (h : Kept x es s) :
    Kept x ((.command m k v, [s.db_ui]) :: es) (turn x m k v s) := by
  by_cases hk : commandOf k = some .login
  · rw [turn_login hk]
    rcases (login_cookies x m v s).2 with ⟨name, hadmits, hcookie⟩ | ⟨hno, hcookie⟩
    · exact h.login hk hadmits hcookie
    · apply h.other _ hcookie
      rintro cookie ⟨name, m', hgave⟩
      obtain ⟨rfl, _, hadmits, _⟩ := gave_command.mp hgave
      exact hno name hadmits
  · apply h.other
    · rintro cookie ⟨name, m', hgave⟩
      exact hk (gave_command.mp hgave).2.1
    · cases hc : commandOf k with
      | none => rw [turn_unknown hc]
      | some c =>
        have hlogin : c ≠ .login := by
          rintro rfl
          exact hk hc
        rw [turn_eq_checked hc hlogin]
        exact (checked_keeps x c _ _ _ m v s).1

theorem Kept.of_run {ui : StdMap Bytes} {dbs : Databases}
    (h : Run (step x) Any (.start ui dbs) es s) : Kept x es s := by
  refine h.invariant (I := Kept x) ?_ ?_
  · intro cookie name until_
    constructor
    · intro hfound
      rw [State.start, find_empty] at hfound
      cases hfound
    · rintro ⟨m, hsince, _⟩
      exact absurd hsince (since_nil _ _)
  · intro es s e s' os hkept _ hstep
    cases e with
    | command m k v =>
      cases hstep
      exact hkept.turn
    | users ui =>
      cases hstep
      apply hkept.other _ rfl
      rintro cookie ⟨name, m, k, v, ui', he, _⟩
      cases he

/-- A cookie of the database is of the user whose session it is. -/
theorem Kept.session {now : Nat} {cookie name : Bytes} (h : Kept x es s) :
    s.cookieUser now cookie = some name ↔ Session x now cookie name es := by
  unfold State.cookieUser Session
  constructor
  · intro hfound
    split at hfound
    · cases hfound
    · rename_i usr until_ hlookup
      split at hfound
      · rename_i hnow
        cases hfound
        obtain ⟨m, hsince, rfl⟩ := (h cookie name until_).mp hlookup
        exact ⟨m, hsince, hnow⟩
      · cases hfound
  · rintro ⟨m, hsince, hnow⟩
    rw [(h cookie name (m.now + ttl)).mpr ⟨m, hsince, rfl⟩]
    dsimp only
    rw [if_pos hnow]

/-! ## For whom a command is served -/

theorem checked_served {name detail : String} {call : PyVal → Bytes → Option Call} {key usr : Bytes}
    (hdown : m.cookie_down = false) (hshows : Shows x v key)
    (huser : s.cookieUser m.now key = some usr) (hne : usr ≠ []) :
    checked x c name detail call m v s = served x c name m (call v usr) s := by
  obtain ⟨cookie, hget, htruthy, hkey⟩ := hshows
  cases usr with
  | nil => exact absurd rfl hne
  | cons b bs => simp [checked, hget, htruthy, hdown, hkey, huser]

/-- A handler that is shown no cookie of a user is blind. -/
theorem checked_unserved (name detail : String) (call : PyVal → Bytes → Option Call)
    (h : ∀ key usr, Shows x v key → s.cookieUser m.now key = some usr → usr = []) :
    Blind (checked x c name detail call m v) s := by
  by_cases hempty : ∃ cookie, v.get "cookie" = some cookie ∧ cookie.truthy = false
  · obtain ⟨cookie, hget, htruthy⟩ := hempty
    apply (Blind.rsp c name [("result", .str (text "failed for unathen"))]).congr
    intro d
    simp [checked, hget, htruthy]
  · apply checked_blind
    intro cookie key usr hget hkey huser
    cases htruthy : cookie.truthy with
    | false => exact absurd ⟨cookie, hget, htruthy⟩ hempty
    | true => exact h key usr ⟨cookie, hget, htruthy, hkey⟩ huser

/-- A command behind the login is served for the user whose login gave its cookie last, within the
hour of that cookie, when the database of the cookies answers and the name of the user is not empty.
A command that shows no such cookie is blind. -/
theorem a_command_is_served_for_whoever_logged_in (x : Outside) {ui : StdMap Bytes}
    {dbs : Databases} {m : Moment} {k : Bytes} {v : PyVal} {s : State} {es : List Entry}
    {c : Command} (h : Run (step x) Any (.start ui dbs) es s) (hc : commandOf k = some c)
    (hlogin : c ≠ .login) :
    (∀ key usr, m.cookie_down = false → Shows x v key → Session x m.now key usr es → usr ≠ [] →
      turn x m k v s = served x c (resultName c) m (callFor x c v usr) s) ∧
    ((∀ key usr, Shows x v key → Session x m.now key usr es → usr = []) →
      Blind (turn x m k v) s) := by
  have hkept := Kept.of_run h
  constructor
  · intro key usr hdown hshows hsession hne
    rw [turn_eq_checked hc hlogin]
    exact checked_served hdown hshows (hkept.session.mpr hsession) hne
  · intro hnobody
    have hunserved : Blind (checked x c (resultName c) (loginFirst c) (callFor x c) m v) s := by
      apply checked_unserved
      intro key usr hshows huser
      exact hnobody key usr hshows (hkept.session.mp huser)
    exact hunserved.congr (fun d => turn_eq_checked hc hlogin)

/-! ## A session -/

/-- The value of a login, and what somebody deletes with its cookie. -/
def aLogin : PyVal := dictOf [("usr", .str (text "u")), ("pwd", .str (text "p"))]

def aDeletion : PyVal :=
  dictOf
    [("cookie", .str (text "9eac30e303e6811919c1da85ab39643ecadc6508aed83239aa99402d9c0652bb")),
    ("rids", .list [.str (text "a:b")])]

theorem a_deletion_is_served_for_half_an_hour :
    ∃ es s, Run (step aService) Any (.start theUsers ⟨theUsers, ∅, ∅, ∅⟩) es s ∧
      turn aService (theClock 1800) (text "delete_servers") aDeletion s =
        served aService .delete_servers "delete_servers_result" (theClock 1800)
          (some (.deleteServers (.list [.str (text "a:b")]))) s := by
  have h0 : Run (step aService) Any (.start theUsers ⟨theUsers, ∅, ∅, ∅⟩) []
      (.start theUsers ⟨theUsers, ∅, ∅, ∅⟩) := .start
  have hrun := Run.next (e := .command (theClock 0) (text "login") aLogin) h0 trivial rfl
  refine ⟨_, _, hrun, ?_⟩
  have hpassword : Password aService aLogin (theUsers.lookup (text "u"))
      (dictOf
        [("pwd", .str (text "148de9c5a7a44d19e56cd9ae1a554bf67847afb0c58f6e12fa29ac7ddfca9940")),
        ("isAdmin", .bool true)]) :=
    ⟨text "ui", text "p", text "p", _, rfl, by decide, rfl, rfl, rfl, rfl, rfl⟩
  have hadmits : Admits aService (theClock 0) theUsers aLogin (text "u") :=
    ⟨rfl, rfl, _, _, rfl, rfl, hpassword⟩
  have hlogin : commandOf (text "login") = some .login := rfl
  have hgave := gave_command.mpr ⟨rfl, hlogin, hadmits, rfl⟩
  exact (a_command_is_served_for_whoever_logged_in aService (c := .delete_servers) hrun rfl
    (by decide)).1 _ _ rfl
    ⟨_, rfl, rfl, rfl⟩ ⟨theClock 0, since_cons.mpr (Or.inl hgave), by decide⟩ (by decide)

end py.restful_api
