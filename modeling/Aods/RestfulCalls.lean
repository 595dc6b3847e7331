-- Calls of the REST service by `RestfulApiClient`: each wraps its arguments and the cookie in a
-- document, and waits for the document that comes back. The law follows a user through the
-- connection: his login gives him a cookie, and for an hour what he calls is what `DbEngine` does
-- for him, whatever the others do in between and however the streams are cut.
import Aods.RestfulSessions

open machine std_map runs
open util.json (text)
open py.restful_frames (Command commandOf Undone request rsp sendAndWaitRsp received received_sent)

namespace py.restful_api

variable {Draw : Type}

/-! ## The client -/

/-- The calls of the client behind its login. -/
inductive Ask where
  | queryPms
  | queryMi (prj module : PyVal)
  | queryUpdateDetail (prj module ver : PyVal)
  | queryServerInfo (rids : PyVal)
  | updateServerInfo (si : PyVal)
  | deleteServers (rids : PyVal)
  | publish (prj module ver gids detail code hash url : PyVal)

/-- The command of a call. -/
def Ask.command : Ask → Command
  | .queryPms => .query_pms
  | .queryMi .. => .query_mi
  | .queryUpdateDetail .. => .query_update_detail
  | .queryServerInfo _ => .query_server
  | .updateServerInfo _ => .update_server
  | .deleteServers _ => .delete_servers
  | .publish .. => .publish

/-- The key of a command, as the client writes it. -/
def keyOf : Command → String
  | .login => "login"
  | .query_pms => "query_pms"
  | .query_mi => "query_mi"
  | .query_update_detail => "query_update_detail"
  | .query_server => "query_server"
  | .update_server => "update_server"
  | .delete_servers => "delete_servers"
  | .publish => "publish"

/-- The arguments of a call. -/
def Ask.args : Ask → List (String × PyVal)
  | .queryPms => []
  | .queryMi prj module => [("project", prj), ("module", module)]
  | .queryUpdateDetail prj module ver => [("project", prj), ("module", module), ("version", ver)]
  | .queryServerInfo rids => [("rids", rids)]
  | .updateServerInfo si => [("si", si)]
  | .deleteServers rids => [("rids", rids)]
  | .publish prj module ver gids detail code hash url =>
    [("project", prj), ("module", module), ("version", ver), ("gids", gids), ("detail", detail),
      ("code", code),
      ("hash", hash), ("url", url)]

/-- What is under the key. -/
def Ask.value (a : Ask) (cookie : PyVal) : PyVal := dictOf (("cookie", cookie) :: a.args)

/-- The document of a call. -/
def Ask.document (a : Ask) (cookie : PyVal) : PyVal := dictOf [(keyOf a.command, a.value cookie)]

/-- The document of `Login`. -/
def credentials (usr pwd : PyVal) : PyVal := dictOf [("usr", usr), ("pwd", pwd)]

def loginDocument (usr pwd : PyVal) : PyVal := dictOf [(keyOf .login, credentials usr pwd)]

/-- What `DbEngine` is to do for the user of a call. -/
def Ask.call (a : Ask) (usr : Bytes) : Call :=
  match a with
  | .queryPms => .queryProjectModules
  | .queryMi prj module => .queryModuleInfo prj module
  | .queryUpdateDetail prj module ver => .queryUpdateDetail prj module ver
  | .queryServerInfo rids => .queryServer rids usr
  | .updateServerInfo si => .updateServer si usr
  | .deleteServers rids => .deleteServers rids
  | .publish prj module ver gids detail code hash url =>
    .publish prj module ver gids detail code hash url usr

/-! ## What comes back -/

/-- The document behind a call. -/
def Ask.reply (a : Ask) (detail : PyVal) : PyVal :=
  dictOf [(resultName a.command, dictOf [("result", .str (text "success")), ("detail", detail)])]

/-- The document behind a login. -/
def loginReply (cookie : Bytes) (isAdmin : PyVal) : PyVal :=
  dictOf
    [("login_result",
      dictOf [("result", .str (text "success")), ("cookie", .str cookie), ("isAdmin", isAdmin)])]

/-- The state behind a login that admitted the user. -/
def State.loggedIn (s : State) (cookie name : Bytes) (until_ : Nat) (isAdmin : PyVal) : State :=
  { s with
    db_cookie := s.db_cookie.insert cookie (name, until_)
    rsps := s.rsps ++ [(.login, loginReply cookie isAdmin)] }

/-- The state behind a call. -/
def State.called (s : State) (a : Ask) (dbs : Databases) (messages : List (Bytes × Bytes))
    (detail : PyVal) : State :=
  { s with
    dbs := dbs, produced := s.produced ++ messages,
    rsps := s.rsps ++ [(a.command, a.reply detail)] }

/-! ## The connection -/

/-- The service behind the pieces of a connection. -/
def serve (net : restful_frames.Outside PyVal Draw) (x : Outside) (m : Moment) (ps : List Bytes)
    (s : State) : State :=
  match received net 0x4f 0x31 ps with
  | none => s
  | some jData => handle x (fun _ => m) jData s

/-- However the two streams are cut, the document takes the service from one state to the other, and
the client is given the reply. -/
def Carried (net : restful_frames.Outside PyVal Draw) (x : Outside) (m : Moment)
    (keyDraw draw keyDraw' draw' : Draw) (jData reply : PyVal) (s s' : State) : Prop :=
  (∃ bytes, request net keyDraw draw jData = some bytes ∧
    ∀ ps rest, (∀ p ∈ ps, p ≠ []) → ps.flatten = bytes ++ rest → serve net x m ps s = s') ∧
  ∃ bytes, rsp net keyDraw' draw' reply = some bytes ∧
    ∀ ps rest, (∀ p ∈ ps, p ≠ []) → ps.flatten = bytes ++ rest → sendAndWaitRsp net ps = some reply

variable {net : restful_frames.Outside PyVal Draw} {x : Outside} {m : Moment} {s s' : State}
  {keyDraw draw keyDraw' draw' : Draw} {jData reply : PyVal}

theorem carried (hthere : Undone net keyDraw draw jData) (hback : Undone net keyDraw' draw' reply)
    (h : handle x (fun _ => m) jData s = s') :
    Carried net x m keyDraw draw keyDraw' draw' jData reply s s' := by
  obtain ⟨bytes, hsent, hreceived⟩ :=
    @received_sent _ _ net _ _ _ 0x4f 0x31 hthere (by decide) (by decide)
  refine ⟨⟨bytes, hsent, ?_⟩, received_sent hback (by decide) (by decide)⟩
  intro ps rest hps hflat
  unfold serve
  rw [hreceived ps rest hps hflat]
  exact h

/-! ## What a document does -/

theorem handle_single (x : Outside) (m : Moment) (k : String) (v : PyVal) (s : State) :
    handle x (fun _ => m) (dictOf [(k, v)]) s = turn x m (text k) v s := rfl

theorem commandOf_keyOf (c : Command) : commandOf (text (keyOf c)) = some c := by
  cases c with
  | _ => decide

theorem command_ne_login (a : Ask) : a.command ≠ .login := by
  cases a with
  | _ => exact Command.noConfusion

/-- The arguments come out of the document as they went in. -/
theorem callFor_value (a : Ask) (cookie : PyVal) {name usr : Bytes} (h : x.decode name = some usr) :
    callFor x a.command (a.value cookie) name = some (a.call usr) := by
  cases a with
  | _ => simp [callFor, Ask.command, Ask.value, Ask.args, Ask.call, dictOf, PyVal.item, text, h]

theorem shows_value (a : Ask) {cookie : Bytes} (hne : cookie ≠ [])
    (htext : x.redisText (.str cookie) = some cookie) :
    Shows x (a.value (.str cookie)) cookie := by
  refine ⟨.str cookie, ?_, ?_, htext⟩
  · simp [Ask.value, dictOf, PyVal.get, PyVal.item]
  · simp [PyVal.truthy, hne]

theorem login_reply {usr dUi isAdmin : PyVal} {pwd name : Bytes} (hup : m.ui_down = false)
    (hcookie : m.cookie_down = false) (hname : x.redisText usr = some name)
    (hpassword : Password x (credentials usr (.str pwd)) (s.db_ui.lookup name) dUi)
    (hadmin : dUi.item "isAdmin" = some isAdmin) :
    login x m (credentials usr (.str pwd)) s =
      s.loggedIn (x.sha256 m.time) name (m.now + ttl) isAdmin := by
  have husr : (credentials usr (.str pwd)).item "usr" = some usr := by
    simp [credentials, dictOf, PyVal.item]
  have hquery : s.queryUserInfo x m usr = s.db_ui.lookup name := by
    unfold State.queryUserInfo
    rw [hup, hname]
    rfl
  unfold login
  rw [husr]
  dsimp only
  rw [hquery]
  rcases loginAs_cases x m (credentials usr (.str pwd)) usr (s.db_ui.lookup name)
    s with ⟨dUi', hpassword', heq⟩ | ⟨hno, _⟩
  · rw [heq]
    cases Password.unique hpassword' hpassword
    unfold grant
    rw [hcookie, hname]
    dsimp only
    rw [hadmin]
    rfl
  · exact absurd hpassword (hno dUi)

/-! ## A user of the service -/

/-- A user with a name and `isAdmin` in his record logs in over the connection, while the databases
answer. However the others go on behind that, unless a login of theirs is given the same cookie,
each of his calls within the hour is what `DbEngine` does for him, when the database of the cookies
answers and `DbEngine` returns, and he is given what it returned. -/
theorem a_user_is_served_over_the_connection (net : restful_frames.Outside PyVal Draw) (x : Outside)
    {ui : StdMap Bytes} {dbs : Databases} {s : State} {es : List Entry} {m : Moment}
    {usr dUi isAdmin : PyVal} {pwd name user : Bytes} {keyDraw draw keyDraw' draw' : Draw}
    (h : Run (step x) Any (.start ui dbs) es s) (hup : m.ui_down = false)
    (hcookie : m.cookie_down = false) (hname : x.redisText usr = some name) (hne : name ≠ [])
    (huser : x.decode name = some user)
    (hpassword : Password x (credentials usr (.str pwd)) (s.db_ui.lookup name) dUi)
    (hadmin : dUi.item "isAdmin" = some isAdmin) (hdigest : x.sha256 m.time ≠ [])
    (htext : x.redisText (.str (x.sha256 m.time)) = some (x.sha256 m.time))
    (hthere : Undone net keyDraw draw (loginDocument usr (.str pwd)))
    (hback : Undone net keyDraw' draw' (loginReply (x.sha256 m.time) isAdmin)) :
    Carried net x m keyDraw draw keyDraw' draw' (loginDocument usr (.str pwd))
      (loginReply (x.sha256 m.time) isAdmin) s
      (s.loggedIn (x.sha256 m.time) name (m.now + ttl) isAdmin) ∧
    ∀ {es' s' m' a dbs' messages detail} {keyDraw draw keyDraw' draw' : Draw},
      Run (step x) Any (s.loggedIn (x.sha256 m.time) name (m.now + ttl) isAdmin) es' s' →
      (∀ e ∈ es', ¬ Gives x (x.sha256 m.time) e) → m'.cookie_down = false → m'.now < m.now + ttl →
      x.engine (Ask.call a user) m' s'.dbs = (dbs', messages, some detail) →
      Undone net keyDraw draw (a.document (.str (x.sha256 m.time))) →
        Undone net keyDraw' draw' (a.reply detail) →
      Carried net x m' keyDraw draw keyDraw' draw' (a.document (.str (x.sha256 m.time)))
        (a.reply detail) s'
        (s'.called a dbs' messages detail) := by
  have hlogin : turn x m (text (keyOf .login)) (credentials usr (.str pwd)) s =
      s.loggedIn (x.sha256 m.time) name (m.now + ttl) isAdmin := by
    rw [turn_login (commandOf_keyOf .login)]
    exact login_reply hup hcookie hname hpassword hadmin
  have hdocument : handle x (fun _ => m) (loginDocument usr (.str pwd)) s =
      s.loggedIn (x.sha256 m.time) name (m.now + ttl) isAdmin := by
    unfold loginDocument
    rw [handle_single, hlogin]
  constructor
  · exact carried hthere hback hdocument
  · intro es' s' m' a dbs' messages detail keyDraw draw keyDraw' draw' hafter hothers hdown hnow
      hengine hthere' hback'
    have hstep : step x s (.command m (text (keyOf .login)) (credentials usr (.str pwd))) =
        .ok (s.loggedIn (x.sha256 m.time) name (m.now + ttl) isAdmin, [s.db_ui]) := by
      rw [← hlogin]
      rfl
    have hrun := (h.next trivial hstep).trans hafter
    have hadmits : Admits x m s.db_ui (credentials usr (.str pwd)) name := by
      refine ⟨hup, hcookie, usr, dUi, ?_, hname, hpassword⟩
      simp [credentials, dictOf, PyVal.item]
    have hgave := gave_command.mpr ⟨rfl, commandOf_keyOf .login, hadmits, rfl⟩
    have huser' : s'.cookieUser m'.now (x.sha256 m.time) = some name := by
      apply (Kept.of_run hrun).session.mpr
      exact ⟨m, ⟨es', _, es, rfl, hgave, hothers⟩, hnow⟩
    apply carried hthere' hback'
    unfold Ask.document
    rw [handle_single, turn_eq_checked (commandOf_keyOf a.command) (command_ne_login a),
      checked_served hdown (shows_value a hdigest htext) huser' hne, callFor_value a _ huser]
    simp only [served, hengine]
    rfl

/-! ## A user deletes servers -/

def theKey : Bytes := text "AAECAwQFBgcICQoLDA0ODxAREhMUFRYXGBkaGxwdHh8="

def theCookie : Bytes := text "9eac30e303e6811919c1da85ab39643ecadc6508aed83239aa99402d9c0652bb"

def theLogin : PyVal := loginDocument (.str (text "u")) (.str (text "p"))

def theLoginReply : PyVal := loginReply theCookie (.bool true)

def theCall : Ask := .deleteServers (.list [.str (text "a:b")])

/-- The texts of the four documents. -/
def loginText : Bytes := text "\x7b\"login\": \x7b\"usr\": \"u\", \"pwd\": \"p\"\x7d\x7d"

def loggedInText : Bytes :=
  text "\x7b\"login_result\": \x7b\"result\": \"success\", \"cookie\": \"" ++ theCookie ++
    text "\", \"isAdmin\": true\x7d\x7d"

def deletionText : Bytes :=
  text "\x7b\"delete_servers\": \x7b\"cookie\": \"" ++ theCookie ++
    text "\", \"rids\": [\"a:b\"]\x7d\x7d"

def deletedText : Bytes :=
  text "\x7b\"delete_servers_result\": \x7b\"result\": \"success\", \"detail\": null\x7d\x7d"

/-- Their tokens of one key, one time and one vector. -/
def loginToken : Bytes :=
  [103, 65, 65, 65, 65, 65, 65, 100, 119, 74, 54, 119, 65, 65, 69, 67, 65, 119, 81, 70, 66, 103, 99,
    73, 67, 81, 111, 76, 68, 65, 48, 79, 68, 52, 122, 55, 52, 75, 68, 120, 115, 65, 73, 121, 117,
    121, 45, 112, 77, 116, 82, 69, 118, 117, 81, 99, 102, 78, 103, 90, 56, 97, 116, 90, 86, 82, 84,
    65, 55, 103, 100, 107, 116, 116, 102, 113, 80, 48, 72, 56, 48, 114, 104, 76, 104, 72, 67, 77,
    115, 48, 116, 70, 119, 79, 104, 122, 116, 73, 76, 68, 105, 80, 67, 99, 72, 81, 115, 114, 54,
    114, 66, 83, 121, 78, 65, 75, 97, 89, 115, 79, 103, 75, 103, 56, 66, 109, 85, 88, 121, 101, 67,
    100, 55, 65, 110, 99, 71, 118, 90, 114]

def loggedInToken : Bytes :=
  [103, 65, 65, 65, 65, 65, 65, 100, 119, 74, 54, 119, 65, 65, 69, 67, 65, 119, 81, 70, 66, 103, 99,
    73, 67, 81, 111, 76, 68, 65, 48, 79, 68, 121, 49, 89, 53, 101, 85, 68, 70, 111, 118, 98, 83, 97,
    121, 113, 120, 56, 45, 79, 53, 76, 65, 85, 72, 73, 112, 107, 119, 121, 76, 53, 119, 90, 56, 75,
    67, 105, 52, 45, 97, 45, 88, 102, 56, 83, 78, 116, 115, 51, 53, 74, 69, 101, 78, 100, 75, 111,
    85, 83, 103, 72, 57, 98, 82, 57, 101, 113, 49, 81, 69, 97, 80, 73, 98, 97, 90, 90, 85, 112, 102,
    72, 100, 84, 99, 67, 70, 103, 45, 80, 99, 78, 50, 110, 118, 107, 99, 122, 73, 80, 110, 107, 101,
    122, 114, 73, 72, 113, 67, 72, 69, 106, 104, 114, 73, 78, 90, 73, 87, 83, 55, 57, 55, 117, 86,
    80, 65, 100, 117, 75, 75, 100, 69, 119, 99, 114, 79, 114, 89, 82, 111, 54, 111, 121, 82, 55,
    103, 54, 97, 81, 90, 50, 51, 70, 71, 56, 114, 88, 90, 117, 99, 80, 121, 77, 83, 53, 52, 82, 105,
    71, 73, 89, 71, 79, 121, 71, 104, 112, 45, 68, 68, 110, 114, 84, 119, 89, 75, 66, 97, 67, 118,
    83, 55, 117, 84, 95, 45, 109, 78, 75, 72, 87, 82, 70, 98, 83, 113, 84, 121, 55, 73, 115, 99, 82,
    85, 84, 86, 57, 113, 49, 65, 120, 122, 99, 104, 107, 122, 79, 79, 80, 119, 104, 68, 51, 106, 70]

def deletionToken : Bytes :=
  [103, 65, 65, 65, 65, 65, 65, 100, 119, 74, 54, 119, 65, 65, 69, 67, 65, 119, 81, 70, 66, 103, 99,
    73, 67, 81, 111, 76, 68, 65, 48, 79, 68, 50, 78, 86, 48, 97, 75, 120, 74, 95, 90, 75, 121, 76,
    68, 78, 117, 102, 106, 48, 102, 115, 73, 72, 53, 55, 102, 80, 82, 67, 109, 78, 113, 108, 114,
    52, 69, 103, 68, 81, 75, 114, 99, 69, 49, 73, 95, 84, 109, 49, 100, 120, 102, 53, 67, 45, 65,
    45, 56, 104, 107, 120, 98, 103, 69, 52, 52, 57, 51, 107, 89, 65, 114, 80, 109, 89, 97, 108, 111,
    79, 77, 95, 57, 76, 101, 73, 105, 120, 116, 54, 48, 117, 105, 86, 88, 101, 68, 82, 74, 88, 98,
    78, 110, 68, 73, 111, 82, 121, 69, 50, 66, 74, 45, 45, 70, 81, 70, 108, 86, 117, 104, 118, 97,
    51, 120, 121, 74, 55, 103, 57, 100, 88, 83, 65, 84, 71, 85, 113, 50, 97, 72, 114, 78, 87, 101,
    101, 84, 84, 119, 100, 82, 53, 57, 79, 69, 110, 54, 80, 72, 76, 106, 51, 103, 75, 119, 57, 117,
    118, 71, 84, 66, 98, 115, 98, 84, 71, 78, 107, 76, 85, 99, 88, 73, 53, 76, 67, 112, 86, 95, 110,
    78, 74, 80, 113, 56, 122, 48, 86, 114, 80, 118, 95, 110, 71, 83, 52, 54, 120, 85, 108, 103, 107,
    54, 110, 111, 61]

def deletedToken : Bytes :=
  [103, 65, 65, 65, 65, 65, 65, 100, 119, 74, 54, 119, 65, 65, 69, 67, 65, 119, 81, 70, 66, 103, 99,
    73, 67, 81, 111, 76, 68, 65, 48, 79, 68, 50, 78, 86, 48, 97, 75, 120, 74, 95, 90, 75, 121, 76,
    68, 78, 117, 102, 106, 48, 102, 115, 76, 70, 109, 118, 68, 118, 113, 118, 75, 56, 74, 120, 80,
    78, 122, 114, 102, 82, 103, 67, 45, 69, 81, 77, 72, 95, 71, 101, 75, 108, 111, 102, 51, 111, 97,
    87, 114, 118, 106, 54, 122, 71, 118, 120, 74, 111, 89, 48, 86, 78, 104, 73, 72, 111, 122, 48,
    78, 99, 109, 98, 45, 87, 101, 104, 81, 78, 57, 89, 67, 53, 107, 121, 52, 67, 110, 77, 115, 66,
    66, 95, 52, 56, 108, 88, 115, 117, 81, 77, 48, 102, 105, 110, 78, 120, 108, 115, 114, 112, 121,
    87, 101, 84, 65, 121, 53, 74, 122, 98, 98, 112, 116, 52, 48, 117, 97, 81, 55, 82, 103, 74, 80,
    120, 120, 116, 95, 56, 75, 89, 85, 61]

/-- What `Fernet` and `json` do with them. Here the lengths tell them apart. -/
def theNet : restful_frames.Outside PyVal Unit where
  generate_key _ := theKey
  encrypt _ _ buf :=
    match buf.length with
    | 35 => loginToken
    | 134 => loggedInToken
    | 115 => deletionToken
    | _ => deletedToken
  decrypt _ token :=
    match token.length with
    | 140 => some loginText
    | 268 => some loggedInText
    | 248 => some deletionText
    | 184 => some deletedText
    | _ => none
  dumps data :=
    match data with
    | .dict [(k, _)] =>
      if k = text "login" then loginText
      else if k = text "login_result" then loggedInText
      else if k = text "delete_servers" then deletionText
      else deletedText
    | _ => []
  loads buf :=
    match buf.length with
    | 35 => some theLogin
    | 134 => some theLoginReply
    | 115 => some (theCall.document (.str theCookie))
    | 64 => some (theCall.reply .none)
    | _ => none
  items data :=
    match data with
    | .dict members => some members
    | _ => none

theorem text_lengths :
    loginText.length = 35 ∧ loggedInText.length = 134 ∧ deletionText.length = 115 ∧
      deletedText.length = 64 := by
  simp [loginText, loggedInText, deletionText, deletedText, theCookie, text]

theorem token_lengths :
    loginToken.length = 140 ∧ loggedInToken.length = 268 ∧ deletionToken.length = 248 ∧
      deletedToken.length = 184 := by
  decide +kernel

theorem theNet_undone {data : PyVal} {buf : Bytes} (hdumps : theNet.dumps data = buf)
    (hloads : theNet.loads buf = some data)
    (hback : theNet.decrypt theKey (theNet.encrypt theKey () buf) = some buf)
    (hlen : (theNet.encrypt theKey () buf).length < 4294967296) : Undone theNet () () data := by
  subst hdumps
  exact ⟨hloads, hback, by simp [theNet, theKey, text], hlen⟩

theorem a_user_deletes_servers_over_the_connection :
    Carried theNet aService (theClock 0) () () () () theLogin theLoginReply
      (.start theUsers ⟨theUsers, ∅, ∅, ∅⟩)
      ((State.start theUsers ⟨theUsers, ∅, ∅, ∅⟩).loggedIn theCookie (text "u") 1600003600
        (.bool true)) ∧
    Carried theNet aService (theClock 1800) () () () () (theCall.document (.str theCookie))
      (theCall.reply .none)
      ((State.start theUsers ⟨theUsers, ∅, ∅, ∅⟩).loggedIn theCookie (text "u")
        1600003600 (.bool true))
      (((State.start theUsers ⟨theUsers, ∅, ∅, ∅⟩).loggedIn theCookie (text "u") 1600003600
        (.bool true)).called theCall
        ⟨∅, ∅, ∅, ∅⟩ [] .none) := by
  have hstart : Run (step aService) Any (.start theUsers ⟨theUsers, ∅, ∅, ∅⟩) []
      (.start theUsers ⟨theUsers, ∅, ∅, ∅⟩) := .start
  have hpassword : Password aService (credentials (.str (text "u")) (.str (text "p")))
      (theUsers.lookup (text "u"))
      (dictOf
        [("pwd", .str (text "148de9c5a7a44d19e56cd9ae1a554bf67847afb0c58f6e12fa29ac7ddfca9940")),
        ("isAdmin", .bool true)]) :=
    ⟨text "ui", text "p", text "p", _, rfl, by decide, rfl, rfl, rfl, rfl, rfl⟩
  obtain ⟨hlogin_len, hloggedIn_len, hdeletion_len, hdeleted_len⟩ := text_lengths
  obtain ⟨hlogin_token, hloggedIn_token, hdeletion_token, hdeleted_token⟩ := token_lengths
  have hlogin : Undone theNet () () theLogin := by
    apply @theNet_undone _ loginText rfl
    · simp [theNet, hlogin_len]
    · simp [theNet, hlogin_len, hlogin_token]
    · simp [theNet, hlogin_len, hlogin_token]
  have hloggedIn : Undone theNet () () theLoginReply := by
    apply @theNet_undone _ loggedInText rfl
    · simp [theNet, hloggedIn_len]
    · simp [theNet, hloggedIn_len, hloggedIn_token]
    · simp [theNet, hloggedIn_len, hloggedIn_token]
  have hdeletion : Undone theNet () () (theCall.document (.str theCookie)) := by
    apply @theNet_undone _ deletionText rfl
    · simp [theNet, hdeletion_len]
    · simp [theNet, hdeletion_len, hdeletion_token]
    · simp [theNet, hdeletion_len, hdeletion_token]
  have hdeleted : Undone theNet () () (theCall.reply .none) := by
    apply @theNet_undone _ deletedText rfl
    · simp [theNet, hdeleted_len]
    · simp [theNet, hdeleted_len, hdeleted_token]
    · simp [theNet, hdeleted_len, hdeleted_token]
  have hboth := @a_user_is_served_over_the_connection Unit theNet aService _ _ _ _ (theClock 0) _ _
    _ _ _ _ _ _ _ _
    hstart rfl rfl rfl (by decide) rfl hpassword rfl (by decide) rfl
    hlogin hloggedIn
  exact ⟨hboth.1, hboth.2 .start (by simp) rfl (by decide) rfl hdeletion hdeleted⟩

end py.restful_api
