-- The handlers of the REST service behind its connection. Each command but the login shows a cookie
-- first, and what `DbEngine` does for a user stands behind that check. The law says that commands
-- whose cookies are of no user change nothing but the cookies, and learn nothing of the other
-- databases.
import Aods.RestfulFrames
import Aods.StdMap

open machine std_map
open util.json (text)
open py.restful_frames (Command commandOf)

namespace py.restful_api

/-! ## Values -/

/-- What `json.loads` gives. A float is kept as its `repr`. -/
inductive PyVal where
  | none
  | bool (b : Bool)
  | int (n : Int)
  | float (repr : Bytes)
  | str (s : Bytes)
  | list (items : List PyVal)
  | dict (members : List (Bytes × PyVal))

namespace PyVal

/-- What an `if` takes it for. -/
def truthy : PyVal → Bool
  | none => false
  | bool b => b
  | int n => n ≠ 0
  | float repr => repr ≠ text "0.0" ∧ repr ≠ text "-0.0"
  | str s => s ≠ []
  | list items => !items.isEmpty
  | dict members => !members.isEmpty

/-- `v[key]`, without the exceptions that no key or no dict raises. -/
def item (v : PyVal) (key : String) : Option PyVal :=
  match v with
  | dict members => (members.find? (fun m => m.1 = text key)).map (·.2)
  | _ => Option.none

/-- `v.get(key)`. Only a dict has it. -/
def get (v : PyVal) (key : String) : Option PyVal :=
  match v with
  | dict _ => some ((v.item key).getD none)
  | _ => Option.none

/-- It is the text. -/
def isText (v : PyVal) (t : Bytes) : Bool :=
  match v with
  | str s => s = t
  | _ => false

end PyVal

def dictOf (members : List (String × PyVal)) : PyVal :=
  .dict (members.map (fun m => (text m.1, m.2)))

/-! ## The service -/

/-- The databases that are for users only. -/
structure Databases where
  db_mgr : StdMap Bytes
  db_pub : StdMap Bytes
  db_log : StdMap Bytes
  db_umi : StdMap Bytes

/-- The databases, with the end of each cookie, the messages to Kafka and the replies. -/
structure State where
  db_ui : StdMap Bytes
  db_cookie : StdMap (Bytes × Nat)
  dbs : Databases
  produced : List (Bytes × Bytes)
  rsps : List (Command × PyVal)

/-- The time at which a command is handled, as a number of seconds and as a text, and whether the
databases of the users and of the cookies raise an exception then. -/
structure Moment where
  now : Nat
  time : Bytes
  ui_down : Bool
  cookie_down : Bool

/-- What a handler asks of `DbEngine` for a user. -/
inductive Call where
  | queryProjectModules
  | queryModuleInfo (prj module : PyVal)
  | queryUpdateDetail (prj module ver : PyVal)
  | queryServer (rids : PyVal) (usr : Bytes)
  | updateServer (si : PyVal) (usr : Bytes)
  | deleteServers (rids : PyVal)
  | publish (prj module ver gids detail code hash url : PyVal) (usr : Bytes)

/-- What comes from outside: the text of a key or of a value for Redis, `encode` and `decode` of a
text, `loads` behind `decode`, `hexdigest`, and what `DbEngine` does for a user: the databases
behind it, its messages and what it returns. An exception is `none`. -/
structure Outside where
  redisText : PyVal → Option Bytes
  encode : Bytes → Option Bytes
  decode : Bytes → Option Bytes
  loads : Bytes → Option PyVal
  sha256 : Bytes → Bytes
  engine : Call → Moment → Databases → Databases × List (Bytes × Bytes) × Option PyVal

/-- `__rsp` of a command. -/
def State.rsp (s : State) (c : Command) (name : String) (members : List (String × PyVal)) : State :=
  { s with rsps := s.rsps ++ [(c, dictOf [(name, dictOf members)])] }

/-- `queryUserInfo`. An exception is `None` too. -/
def State.queryUserInfo (s : State) (x : Outside) (m : Moment) (usr : PyVal) : Option Bytes :=
  if m.ui_down then none else (x.redisText usr).bind (fun key => s.db_ui.lookup key)

def ttl : Nat := 3600

/-- What `db_cookie` has for a key: a cookie is gone when its time is over. -/
def State.cookieUser (s : State) (now : Nat) (key : Bytes) : Option Bytes :=
  match s.db_cookie.lookup key with
  | none => none
  | some (usr, until_) => if now < until_ then some usr else none

/-- `__login` behind the check of the password: a cookie for the user. -/
def grant (x : Outside) (m : Moment) (usr dUi : PyVal) (s : State) : State :=
  let cookie := x.sha256 m.time
  match m.cookie_down, x.redisText usr with
  | false, some name =>
    let s := { s with db_cookie := s.db_cookie.insert cookie (name, m.now + ttl) }
    match dUi.item "isAdmin" with
    | none => s
    | some isAdmin =>
      s.rsp .login "login_result" [("result", .str (text "success")), ("cookie", .str cookie),
        ("isAdmin", isAdmin)]
  | _, _ => s

/-- `__login` behind the query, which gave `ui`. -/
def loginAs (x : Outside) (m : Moment) (value usr : PyVal) (ui : Option Bytes) (s : State) :
    State :=
  match ui.getD [] with
  | [] => s.rsp .login "login_result" [("result", .str (text "failed"))]
  | b :: bs =>
    match x.loads (b :: bs), value.item "pwd" with
    | some dUi, some (.str pwd) =>
      match x.encode pwd, dUi.item "pwd" with
      | some buf, some stored =>
        if !stored.isText (x.sha256 buf) then
          s.rsp .login "login_result" [("result", .str (text "failed"))]
        else grant x m usr dUi s
      | _, _ => s
    | _, _ => s

/-- `__login`. -/
def login (x : Outside) (m : Moment) (value : PyVal) (s : State) : State :=
  match value.item "usr" with
  | none => s
  | some usr => loginAs x m value usr (s.queryUserInfo x m usr) s

/-- The end of the other handlers, with what they ask of `DbEngine`. -/
def served (x : Outside) (c : Command) (name : String) (m : Moment) (call : Option Call)
    (s : State) : State :=
  match call with
  | none => s
  | some call =>
    let (dbs, messages, detail) := x.engine call m s.dbs
    let s := { s with dbs := dbs, produced := s.produced ++ messages }
    match detail with
    | none => s
    | some detail => s.rsp c name [("result", .str (text "success")), ("detail", detail)]

/-- What they have in common: the cookie, the user behind it, and what is asked for him. -/
def checked (x : Outside) (c : Command) (name detail : String) (call : PyVal → Bytes → Option Call)
    (m : Moment) (v : PyVal) (s : State) : State :=
  match v.get "cookie" with
  | none => s
  | some cookie =>
    if !cookie.truthy then s.rsp c name [("result", .str (text "failed for unathen"))]
    else
      match m.cookie_down, x.redisText cookie with
      | false, some key =>
        match (s.cookieUser m.now key).getD [] with
        | [] => s.rsp c name [("result", .str (text "failed")), ("detail", .str (text detail))]
        | b :: bs => served x c name m (call v (b :: bs)) s
      | _, _ => s

/-- `__onQueryProjectModules`, and so on. -/
def onQueryProjectModules (x : Outside) : Moment → PyVal → State → State :=
  checked x .query_pms "query_pms_result" "Please authen first"
    (fun _ _ => some .queryProjectModules)

def onQueryModuleInfo (x : Outside) : Moment → PyVal → State → State :=
  checked x .query_mi "query_mi_result" "Please authen first" (fun v _ => do
    some (.queryModuleInfo (← v.item "project") (← v.item "module")))

def onQueryUpdateDetail (x : Outside) : Moment → PyVal → State → State :=
  checked x .query_update_detail "query_update_result" "Please authen first" (fun v _ => do
    some (.queryUpdateDetail (← v.item "project") (← v.item "module") (← v.item "version")))

def onQueryServer (x : Outside) : Moment → PyVal → State → State :=
  checked x .query_server "query_server_result" "Please authen first" (fun v usr => do
    some (.queryServer (← v.item "rids") (← x.decode usr)))

def onUpdateServer (x : Outside) : Moment → PyVal → State → State :=
  checked x .update_server "update_server_result" "Please authen first" (fun v usr => do
    some (.updateServer (← v.item "si") (← x.decode usr)))

def onDeleteServers (x : Outside) : Moment → PyVal → State → State :=
  checked x .delete_servers "delete_servers_result" "Please authen first" (fun v _ => do
    some (.deleteServers (← v.item "rids")))

def onPublish (x : Outside) : Moment → PyVal → State → State :=
  checked x .publish "publish_result" "Please authenticate first" (fun v usr => do
    some (.publish (← v.item "project") (← v.item "module") (← v.item "version") (← v.item "gids")
      (← v.item "detail")
      (← v.item "code") (← v.item "hash") (← v.item "url") (← x.decode usr)))

/-- A turn of the loop of `handle`. -/
def turn (x : Outside) (m : Moment) (k : Bytes) (v : PyVal) (s : State) : State :=
  match commandOf k with
  | none => s
  | some .login => login x m v s
  | some .query_pms => onQueryProjectModules x m v s
  | some .query_mi => onQueryModuleInfo x m v s
  | some .query_update_detail => onQueryUpdateDetail x m v s
  | some .query_server => onQueryServer x m v s
  | some .update_server => onUpdateServer x m v s
  | some .delete_servers => onDeleteServers x m v s
  | some .publish => onPublish x m v s

/-- The loop, with the time of each turn. -/
def turns (x : Outside) (clock : Nat → Moment) : Nat → List (Bytes × PyVal) → State → State
  | _, [], s => s
  | n, item :: items, s => turns x clock (n + 1) items (turn x (clock n) item.1 item.2 s)

/-- `handle` of a document. One that is no object raises an exception. -/
def handle (x : Outside) (clock : Nat → Moment) (jData : PyVal) (s : State) : State :=
  match jData with
  | .dict members => turns x clock 0 members s
  | _ => s

/-! ## Strangers -/

/-- At this time the cookie of the value is of no user. -/
def Stranger (x : Outside) (m : Moment) (v : PyVal) (s : State) : Prop :=
  ∀ cookie key usr, v.get "cookie" = some cookie → x.redisText cookie = some key →
    s.cookieUser m.now key = some usr → usr = []

/-- No command behind the login has a cookie of a user at its time. -/
def Strangers (x : Outside) (clock : Nat → Moment) : Nat → List (Bytes × PyVal) → State → Prop
  | _, [], _ => True
  | n, item :: items, s =>
    (∀ c, commandOf item.1 = some c → c ≠ .login → Stranger x (clock n) item.2 s) ∧
      Strangers x clock (n + 1) items (turn x (clock n) item.1 item.2 s)

/-- No command of a document has one. -/
def NoUser (x : Outside) (clock : Nat → Moment) (jData : PyVal) (s : State) : Prop :=
  match jData with
  | .dict members => Strangers x clock 0 members s
  | _ => True

/-- What is done without a look at the databases of the users, and without a message. -/
structure Blind (f : State → State) (s : State) : Prop where
  dbs_same : (f s).dbs = s.dbs
  produced_same : (f s).produced = s.produced
  dbs_unread : ∀ d, f { s with dbs := d } = { f s with dbs := d }

variable {x : Outside} {clock : Nat → Moment} {m : Moment} {v : PyVal} {s : State}

theorem Blind.refl : Blind (fun s => s) s := ⟨rfl, rfl, fun _ => rfl⟩

theorem Blind.rsp (c : Command) (name : String) (members : List (String × PyVal)) :
    Blind (fun s => s.rsp c name members) s := ⟨rfl, rfl, fun _ => rfl⟩

theorem Blind.comp {f g : State → State} (hf : Blind f s) (hg : Blind g (f s)) :
    Blind (fun s => g (f s)) s where
  dbs_same := by rw [hg.dbs_same, hf.dbs_same]
  produced_same := by rw [hg.produced_same, hf.produced_same]
  dbs_unread d := by rw [hf.dbs_unread, hg.dbs_unread]

theorem Blind.congr {f g : State → State} (hg : Blind g s)
    (h : ∀ d, f { s with dbs := d } = g { s with dbs := d }) :
    Blind f s := by
  have hs : f s = g s := h s.dbs
  constructor
  · rw [hs, hg.dbs_same]
  · rw [hs, hg.produced_same]
  · intro d
    rw [h, hs, hg.dbs_unread]

theorem Blind.cookie (cookie name : Bytes) (until_ : Nat) :
    Blind (fun s => { s with db_cookie := s.db_cookie.insert cookie (name, until_) }) s :=
  ⟨rfl, rfl, fun _ => rfl⟩

theorem grant_blind (x : Outside) (m : Moment) (usr dUi : PyVal) (s : State) :
    Blind (grant x m usr dUi) s := by
  unfold grant
  dsimp only
  split
  · rename_i name _ _
    have hcookie := Blind.cookie (s := s) (x.sha256 m.time) name (m.now + ttl)
    split
    · exact hcookie
    · exact hcookie.comp (Blind.rsp .login "login_result" _)
  · exact Blind.refl

theorem loginAs_blind (x : Outside) (m : Moment) (value usr : PyVal)
    (ui : Option Bytes) (s : State) :
    Blind (loginAs x m value usr ui) s := by
  unfold loginAs
  split
  · exact Blind.rsp .login "login_result" _
  split
  · split
    · split
      · exact Blind.rsp .login "login_result" _
      · exact grant_blind x m usr _ s
    · exact Blind.refl
  · exact Blind.refl

theorem login_blind (x : Outside) (m : Moment) (value : PyVal) (s : State) :
    Blind (login x m value) s := by
  cases husr : value.item "usr" with
  | none => exact Blind.refl.congr (fun d => by simp only [login, husr])
  | some usr =>
    have hquery : ∀ d, ({ s with dbs := d } : State).queryUserInfo x m usr =
        s.queryUserInfo x m usr := fun _ => rfl
    exact (loginAs_blind x m value usr (s.queryUserInfo x m usr) s).congr
      (fun d => by simp only [login, husr, hquery])

/-- A handler that finds no user is at its end with that. -/
theorem checked_blind (c : Command) (name detail : String) (call : PyVal → Bytes → Option Call)
    (h : Stranger x m v s) :
    Blind (checked x c name detail call m v) s := by
  cases hget : v.get "cookie" with
  | none =>
    apply Blind.refl.congr
    intro d
    simp only [checked, hget]
  | some cookie =>
    cases htruthy : cookie.truthy with
    | false =>
      apply (Blind.rsp c name [("result", .str (text "failed for unathen"))]).congr
      intro d
      simp [checked, hget, htruthy]
    | true =>
      cases hdown : m.cookie_down with
      | true =>
        apply Blind.refl.congr
        intro d
        simp [checked, hget, htruthy, hdown]
      | false =>
        cases hkey : x.redisText cookie with
        | none =>
          apply Blind.refl.congr
          intro d
          simp [checked, hget, htruthy, hdown, hkey]
        | some key =>
          have hread : ∀ d, ({ s with dbs := d } : State).cookieUser m.now key =
              s.cookieUser m.now key := fun _ => rfl
          have huser : (s.cookieUser m.now key).getD [] = [] := by
            cases hcookie : s.cookieUser m.now key with
            | none => rfl
            | some usr => exact h cookie key usr hget hkey hcookie
          apply (Blind.rsp c name
            [("result", .str (text "failed")), ("detail", .str (text detail))]).congr
          intro d
          simp [checked, hget, htruthy, hdown, hkey, hread, huser]

theorem turn_checked (x : Outside) {k : Bytes} {c : Command} (hc : commandOf k = some c)
    (hlogin : c ≠ .login) :
    ∃ name detail call, ∀ m v s, turn x m k v s = checked x c name detail call m v s := by
  unfold turn
  rw [hc]
  cases c with
  | login => exact absurd rfl hlogin
  | query_pms => exact ⟨"query_pms_result", "Please authen first", _, fun _ _ _ => rfl⟩
  | query_mi => exact ⟨"query_mi_result", "Please authen first", _, fun _ _ _ => rfl⟩
  | query_update_detail => exact ⟨"query_update_result", "Please authen first", _, fun _ _ _ => rfl⟩
  | query_server => exact ⟨"query_server_result", "Please authen first", _, fun _ _ _ => rfl⟩
  | update_server => exact ⟨"update_server_result", "Please authen first", _, fun _ _ _ => rfl⟩
  | delete_servers => exact ⟨"delete_servers_result", "Please authen first", _, fun _ _ _ => rfl⟩
  | publish => exact ⟨"publish_result", "Please authenticate first", _, fun _ _ _ => rfl⟩

theorem turn_blind (k : Bytes) (h : ∀ c, commandOf k = some c → c ≠ .login → Stranger x m v s) :
    Blind (turn x m k v) s := by
  cases hc : commandOf k with
  | none =>
    apply Blind.refl.congr
    intro d
    simp only [turn, hc]
  | some c =>
    by_cases hlogin : c = .login
    · subst hlogin
      apply (login_blind x m v s).congr
      intro d
      simp only [turn, hc]
    · obtain ⟨name, detail, call, hturn⟩ := turn_checked x hc hlogin
      apply (checked_blind c name detail call (h c hc hlogin)).congr
      intro d
      exact hturn m v _

theorem turns_blind {n : Nat} {items : List (Bytes × PyVal)} (h : Strangers x clock n items s) :
    Blind (turns x clock n items) s := by
  induction items generalizing n s with
  | nil => exact Blind.refl
  | cons item items ih => exact (turn_blind item.1 h.1).comp (ih h.2)

theorem handle_blind {jData : PyVal} (h : NoUser x clock jData s) :
    Blind (handle x clock jData) s := by
  cases jData with
  | dict members => exact turns_blind h
  | _ => exact Blind.refl

/-- A document of strangers leaves the databases of the users and produces nothing, and it is
answered the same whatever these have. -/
theorem strangers_change_and_learn_nothing (x : Outside) (clock : Nat → Moment) (jData : PyVal)
    (ui : StdMap Bytes) (cookies : StdMap (Bytes × Nat)) (d d' : Databases)
    (h : NoUser x clock jData ⟨ui, cookies, d, [], []⟩) :
    (handle x clock jData ⟨ui, cookies, d, [], []⟩).dbs = d ∧
    (handle x clock jData ⟨ui, cookies, d, [], []⟩).produced = [] ∧
    (handle x clock jData ⟨ui, cookies, d', [], []⟩).rsps =
      (handle x clock jData ⟨ui, cookies, d, [], []⟩).rsps := by
  have hblind := handle_blind h
  refine ⟨hblind.dbs_same, hblind.produced_same, ?_⟩
  have hunread := hblind.dbs_unread d'
  dsimp only at hunread
  rw [hunread]

/-! ## A document of a stranger -/

/-- Somebody logs in, and goes on with an old cookie, with a list and without a cookie. -/
def aDocument : PyVal :=
  dictOf [("login", dictOf [("usr", .str (text "u")), ("pwd", .str (text "p"))]),
    ("query_server", dictOf [("cookie", .str (text "old")), ("rids", .none)]),
      ("update_server", .list []),
    ("publish", dictOf [("gids", .list [.int 1])])]

def theUsers : StdMap Bytes := (∅ : StdMap Bytes).insert (text "u") (text "ui")

def theCookies : StdMap (Bytes × Nat) :=
  (∅ : StdMap (Bytes × Nat)).insert (text "old") (text "u", 3600)

def theClock (n : Nat) : Moment := ⟨1600000000 + n, text "1600000000.5", false, false⟩

/-- A service where a user can delete all servers and publish. -/
def aService : Outside where
  redisText v := match v with
    | .str s => some s
    | _ => none
  encode s := some s
  decode s := some s
  loads _ :=
    some (dictOf
      [("pwd", .str (text "148de9c5a7a44d19e56cd9ae1a554bf67847afb0c58f6e12fa29ac7ddfca9940")),
    ("isAdmin", .bool true)])
  sha256 s :=
    if s = text "p" then text "148de9c5a7a44d19e56cd9ae1a554bf67847afb0c58f6e12fa29ac7ddfca9940"
    else text "9eac30e303e6811919c1da85ab39643ecadc6508aed83239aa99402d9c0652bb"
  engine call _ dbs := match call with
    | .deleteServers _ => ({ dbs with db_mgr := ∅ }, [], some .none)
    | .publish _ _ _ _ _ _ _ _ usr => (dbs, [(text "publish", usr)], some (.str (text "success")))
    | _ => (dbs, [], some (dictOf []))

theorem strangers_change_and_learn_nothing_behind_a_login :
    (handle aService theClock aDocument ⟨theUsers, theCookies, ⟨theUsers, ∅, ∅, ∅⟩, [], []⟩).dbs =
      ⟨theUsers, ∅, ∅, ∅⟩ ∧
    (handle aService theClock aDocument
      ⟨theUsers, theCookies, ⟨theUsers, ∅, ∅, ∅⟩, [], []⟩).produced = [] ∧
    (handle aService theClock aDocument ⟨theUsers, theCookies, ⟨∅, ∅, ∅, ∅⟩, [], []⟩).rsps =
      (handle aService theClock aDocument
        ⟨theUsers, theCookies, ⟨theUsers, ∅, ∅, ∅⟩, [], []⟩).rsps := by
  apply strangers_change_and_learn_nothing aService theClock aDocument theUsers theCookies
    ⟨theUsers, ∅, ∅, ∅⟩ ⟨∅, ∅, ∅, ∅⟩
  refine ⟨?_, ?_, ?_, ?_, trivial⟩
  · intro c hc hlogin
    exact absurd (Option.some.inj hc.symm) hlogin
  · intro c _ _ cookie key usr hcookie hkey husr
    have hold : cookie = .str (text "old") := (Option.some.inj hcookie).symm
    subst hold
    have hkey' : key = text "old" := (Option.some.inj hkey).symm
    subst hkey'
    cases husr
  · intro c _ _ cookie key usr hcookie
    cases hcookie
  · intro c _ _ cookie key usr hcookie hkey
    have hnone : cookie = .none := (Option.some.inj hcookie).symm
    subst hnone
    cases hkey

end py.restful_api
