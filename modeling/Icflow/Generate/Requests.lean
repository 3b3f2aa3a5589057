import Icflow.Foundation.Attempts
import Icflow.Foundation.Utf8
import Icflow.Generate.Reply

set_option autoImplicit false

/-!
# The requests to the API

`call_responses_api`: the check of the base URL, the request, and the loop that sends it
until a reply is read or an attempt gives up.  The outcomes of the attempts are an infinite
sequence of which the loop reads a beginning; the number of requests and the ending are
given by how many outcomes at its start ask for another attempt.
-/

namespace Icflow.Generate

open Icflow.Foundation

/-- How one attempt ends for the caller of `urllib.request.urlopen`. -/
inductive Outcome where
  /-- a reply whose body is read -/
  | reply (body : List Char)
  /-- `urllib.error.HTTPError`, with the decoded text of its body -/
  | httpError (code : Nat) (details : List Char)
  /-- `urllib.error.URLError` that is no `HTTPError` -/
  | urlError (reason : List Char)
  deriving DecidableEq

/-- What `call_responses_api` raises. -/
inductive CallError where
  /-- `--api-base must be an HTTPS URL …`, or the `ValueError` of `urlparse` -/
  | insecureBase
  /-- `OpenAI API error HTTP {code}: {details}`, a `RuntimeError` -/
  | http (code : Nat) (details : List Char)
  /-- `OpenAI API connection failed: {reason}`, a `RuntimeError` -/
  | connection (reason : List Char)
  /-- a `UnicodeDecodeError` -/
  | notUtf8
  /-- what reading the reply raises -/
  | reading (raised : Raised)
  /-- the `ValueError` of `http.client` for this value of a header -/
  | headerValue (value : Name)
  /-- `AssertionError("unreachable")` -/
  | unreachable
  deriving DecidableEq

def CallError.isRuntimeError : CallError → Bool
  | .http _ _ | .connection _ => true
  | .reading .status | .reading .refused | .reading .noOutputText => true
  | _ => false

/-- What `call_responses_api` returns: `generated, response` -/
abbrev Result : Type := Json Nat × List (Name × Json Nat)

/-! ## The request -/

/-- The arguments that end up in the request, with the two constants of the module. -/
structure Arguments where
  apiKey : Name
  apiBase : Name
  model : Name
  prompt : Name
  reasoningEffort : Name
  maxOutputTokens : Nat
  /-- `SYSTEM_INSTRUCTIONS` -/
  systemInstructions : Name
  /-- `RESPONSE_SCHEMA` -/
  responseSchema : Json Nat

/-- `urllib.request.Request`; the body is kept as the value that `json.dumps` prints. -/
structure Request where
  method : Name
  url : Name
  headers : List (Name × Name)
  payload : Json Nat

/-- `payload` -/
def payload (arguments : Arguments) : Json Nat :=
  .obj
    [(text "model", .str arguments.model),
      (text "instructions", .str arguments.systemInstructions),
      (text "input", .str arguments.prompt),
      (text "store", .bool false),
      (text "max_output_tokens", .num (Nat.repr arguments.maxOutputTokens).toList),
      (text "reasoning", .obj [(text "effort", .str arguments.reasoningEffort)]),
      (text "text", .obj
        [(text "format", .obj
            [(text "type", .str (text "json_schema")),
              (text "name", .str (text "supplementary_test_suite")),
              (text "strict", .bool true),
              (text "schema", arguments.responseSchema)]),
          (text "verbosity", .str (text "low"))])]

/-- `api_base.rstrip('/')` -/
def rstripSlash (base : Name) : Name := (base.reverse.dropWhile fun point => point = 47).reverse

def buildRequest (arguments : Arguments) : Request where
  method := text "POST"
  url := rstripSlash arguments.apiBase ++ text "/responses"
  headers :=
    [(text "Authorization", text "Bearer " ++ arguments.apiKey),
      (text "Content-Type", text "application/json"),
      (text "User-Agent", text "icflow-llm-test-generation/1")]
  payload := payload arguments

/-! ## One attempt -/

section Attempt

variable (decode : Name → Option (Json Nat)) (retries : Int)

/-- From the value of a reply to what is returned; `decode` is `json.loads`. -/
def readResponse (value : Json Nat) : Except Raised Result :=
  match dictMembers value with
  | none => .error .attributeError
  | some response =>
      match checkStatus response with
      | .error raised => .error raised
      | .ok () =>
          match responseOutputText response with
          | .error raised => .error raised
          | .ok output =>
              match decode output with
              | none => .error .notJson
              | some generated => .ok (generated, response)

/-- The body of `try` once `urlopen` has returned. -/
def readReply (body : List Char) : Except CallError Result :=
  match utf8Decode body with
  | none => .error .notUtf8
  | some characters =>
      match decode (characters.map Char.toNat) with
      | none => .error (.reading .notJson)
      | some value =>
          match readResponse decode value with
          | .error raised => .error (.reading raised)
          | .ok result => .ok result

/-- The codes of HTTP after which another attempt is made. -/
def retryableCodes : List Nat := [408, 409, 429, 500, 502, 503, 504]

/-- The two handlers of `try` and its body: `none` goes on to `time.sleep`. -/
def attemptEnds (attempt : Nat) : Outcome → Option (Except CallError Result)
  | .reply body => some (readReply decode body)
  | .httpError code details =>
      if code ∉ retryableCodes ∨ retries ≤ attempt then some (.error (.http code details)) else none
  | .urlError reason => if retries ≤ attempt then some (.error (.connection reason)) else none

end Attempt

/-! ## The loop -/

/-- What a call leaves behind: the requests sent, the seconds slept and its ending. -/
structure Call where
  requests : List Request
  sleeps : List Nat
  result : Except CallError Result

section Loop

variable (decode : Name → Option (Json Nat)) (request : Request) (outcomes : Nat → Outcome)
  (retries : Int)

/-- The `for` statement over the remaining attempts, and the line after it. -/
def requestLoop : List Nat → Call
  | [] => ⟨[], [], .error .unreachable⟩
  | attempt :: rest =>
      match attemptEnds decode retries attempt (outcomes attempt) with
      | some result => ⟨[request], [], result⟩
      | none =>
          let later := requestLoop rest
          ⟨request :: later.requests, min (2 ^ attempt) 8 :: later.sleeps, later.result⟩

/-- `call_responses_api`; `urlparse` gives the scheme and the network location. -/
def callResponsesApi (urlparse : Name → Option (Name × Name)) (arguments : Arguments) : Call :=
  match urlparse arguments.apiBase with
  | none => ⟨[], [], .error .insecureBase⟩
  | some (scheme, netloc) =>
      if scheme ≠ text "https" ∨ netloc = [] then ⟨[], [], .error .insecureBase⟩
      else
        requestLoop decode (buildRequest arguments) outcomes retries
          (List.range (retries + 1).toNat)

end Loop

/-! ## Kinds of outcomes -/

/-- An outcome after which the same request is worth sending again. -/
def Transient : Outcome → Prop
  | .reply _ => False
  | .httpError code _ => code ∈ retryableCodes
  | .urlError _ => True

/-- A reply that is read to its end. -/
def Completed (decode : Name → Option (Json Nat)) (outcome : Outcome) : Prop :=
  ∃ body result, outcome = .reply body ∧ readReply decode body = .ok result

/-- An HTTP status, a failing connection or a completed reply. -/
def Regular (decode : Name → Option (Json Nat)) (outcome : Outcome) : Prop :=
  (∃ body, outcome = .reply body) → Completed decode outcome

section Kinds

variable {decode : Name → Option (Json Nat)} {retries : Int} {attempt : Nat} {outcome : Outcome}

theorem not_transient_of_completed (h : Completed decode outcome) : ¬ Transient outcome := by
  obtain ⟨body, result, rfl, _⟩ := h
  exact not_false

/-- Another attempt is made after a transient outcome that is not the last one. -/
theorem attemptEnds_eq_none_iff :
    attemptEnds decode retries attempt outcome = none ↔ Transient outcome ∧ (attempt : Int) < retries := by
  cases outcome with
  | reply body => simp [attemptEnds, Transient]
  | httpError code details => simp [attemptEnds, Transient]
  | urlError reason => simp [attemptEnds, Transient]

/-- An attempt that ends the loop never ends it with the assertion, and with a result
exactly when its reply is completed. -/
theorem attemptEnds_eq_some {result : Except CallError Result}
    (h : attemptEnds decode retries attempt outcome = some result) :
    result ≠ .error .unreachable ∧ ((∃ value, result = .ok value) ↔ Completed decode outcome) ∧
      (Regular decode outcome →
        (∃ value, result = .ok value) ∨ ∃ error, result = .error error ∧ error.isRuntimeError) := by
  cases outcome with
  | reply body =>
      have hread : readReply decode body = result := Option.some.inj h
      refine ⟨?_, ?_, ?_⟩
      · intro hunreachable
        rw [hunreachable, readReply] at hread
        split at hread
        · cases hread
        · split at hread
          · cases hread
          · split at hread <;> cases hread
      · constructor
        · rintro ⟨value, hvalue⟩
          exact ⟨body, value, rfl, hread.trans hvalue⟩
        · rintro ⟨other, value, hother, hvalue⟩
          cases hother
          exact ⟨value, hread.symm.trans hvalue⟩
      · intro hregular
        obtain ⟨other, value, hother, hvalue⟩ := hregular ⟨body, rfl⟩
        cases hother
        exact Or.inl ⟨value, hread.symm.trans hvalue⟩
  | httpError code details =>
      simp only [attemptEnds, Option.ite_none_right_eq_some, Option.some.injEq] at h
      rw [← h.2]
      simp [Completed, CallError.isRuntimeError]
  | urlError reason =>
      simp only [attemptEnds, Option.ite_none_right_eq_some, Option.some.injEq] at h
      rw [← h.2]
      simp [Completed, CallError.isRuntimeError]

end Kinds

/-! ## The whole loop -/

section Run

variable (decode : Name → Option (Json Nat)) (request : Request) (outcomes : Nat → Outcome)
  (retries : Int)

/-- What one attempt decides in a run with these outcomes. -/
def decides (attempt : Nat) : Option (Except CallError Result) :=
  attemptEnds decode retries attempt (outcomes attempt)

/-- The loop of the source is a loop of attempts that also keeps the requests and the
sleeps between them. -/
theorem requestLoop_range' (first count : Nat) :
    requestLoop decode request outcomes retries (List.range' first count) =
      { requests := List.replicate (attempts (decides decode outcomes retries) first count).1 request
        sleeps := (List.range' first
            ((attempts (decides decode outcomes retries) first count).1 -
              if (attempts (decides decode outcomes retries) first count).2.isSome then 1 else 0)).map
          fun attempt => min (2 ^ attempt) 8
        result := (attempts (decides decode outcomes retries) first count).2.getD
          (.error .unreachable) } := by
  induction count generalizing first with
  | zero => rfl
  | succ count ih =>
      rw [List.range'_succ, requestLoop]
      cases hfirst : attemptEnds decode retries first (outcomes first) with
      | some result =>
          rw [attempts_succ_of_some hfirst]
          simp
      | none =>
          rw [attempts_succ_of_none hfirst, ih (first + 1)]
          rcases attempts_cases (decides decode outcomes retries) (first + 1) count with
            ⟨n, _, result, _, _, heq⟩ | ⟨_, heq⟩
          · simp [heq, List.replicate_succ, List.range'_succ]
          · simp [heq, List.replicate_succ, List.range'_succ]

end Run

section Bounded

variable {decode : Name → Option (Json Nat)} {outcomes : Nat → Outcome} {retries : Nat}

theorem decides_eq_none_iff {attempt : Nat} :
    decides decode outcomes retries (0 + attempt) = none ↔
      Transient (outcomes attempt) ∧ attempt < retries := by
  unfold decides
  rw [Nat.zero_add, attemptEnds_eq_none_iff, Int.ofNat_lt]

/-- The loop makes an attempt after each transient outcome that comes first, and ends with
what the attempt after these decides, or with the last one. -/
theorem exists_requestLoop (decode : Name → Option (Json Nat)) (request : Request)
    (outcomes : Nat → Outcome) (retries : Nat) :
    ∃ n ≤ retries, ∃ result, (∀ m < n, Transient (outcomes m)) ∧
      (Transient (outcomes n) → n = retries) ∧
      attemptEnds decode retries n (outcomes n) = some result ∧
      requestLoop decode request outcomes retries (List.range (retries + 1)) =
        { requests := List.replicate (n + 1) request
          sleeps := (List.range n).map fun attempt => min (2 ^ attempt) 8
          result := result } := by
  have hlast : decides decode outcomes retries (0 + retries) ≠ none := by
    rw [Ne, decides_eq_none_iff]
    exact fun h => Nat.lt_irrefl retries h.2
  obtain ⟨n, hn, result, hbefore, hresult, heq⟩ := attempts_of_last hlast
  refine ⟨n, hn, result, ?_, ?_, ?_, ?_⟩
  · intro m hm
    exact (decides_eq_none_iff.mp (hbefore m hm)).1
  · intro htransient
    by_contra hne
    have hnone : decides decode outcomes retries (0 + n) = none :=
      decides_eq_none_iff.mpr ⟨htransient, Nat.lt_of_le_of_ne hn hne⟩
    rw [hresult] at hnone
    cases hnone
  · rwa [decides, Nat.zero_add] at hresult
  · rw [List.range_eq_range', requestLoop_range', heq, List.range_eq_range']
    rfl

/-- With transient outcomes at exactly the first `k` attempts, the last attempt made is
number `min k retries`. -/
theorem coe_eq_min_leading {p : Nat → Prop} {n : Nat} (hn : n ≤ retries) (hbefore : ∀ m < n, p m)
    (hlast : p n → n = retries) : (n : ℕ∞) = min (leading p) retries := by
  by_cases h : p n
  · have hlt : (n : ℕ∞) < leading p := by
      rw [coe_lt_leading_iff]
      intro m hm
      rcases Nat.lt_or_eq_of_le hm with hlt | rfl
      · exact hbefore m hlt
      · exact h
    rw [hlast h] at hlt ⊢
    exact (min_eq_right hlt.le).symm
  · rw [leading_eq_coe_iff.mpr ⟨hbefore, h⟩]
    exact (min_eq_left (Nat.cast_le.mpr hn)).symm

/-- With an HTTPS base the call is its loop. -/
theorem callResponsesApi_of_https {limit : Int} {urlparse : Name → Option (Name × Name)}
    {arguments : Arguments} {netloc : Name}
    (hbase : urlparse arguments.apiBase = some (text "https", netloc)) (hnetloc : netloc ≠ []) :
    callResponsesApi decode outcomes limit urlparse arguments =
      requestLoop decode (buildRequest arguments) outcomes limit (List.range (limit + 1).toNat) := by
  unfold callResponsesApi
  rw [hbase]
  apply if_neg
  rintro (hscheme | hempty)
  · exact hscheme rfl
  · exact hnetloc hempty

/-- Nothing is sent to a base that is not HTTPS. -/
theorem callResponsesApi_of_not_https {limit : Int} {urlparse : Name → Option (Name × Name)}
    {arguments : Arguments}
    (hbase : ∀ netloc, urlparse arguments.apiBase = some (text "https", netloc) → netloc = []) :
    callResponsesApi decode outcomes limit urlparse arguments = ⟨[], [], .error .insecureBase⟩ := by
  unfold callResponsesApi
  cases hparsed : urlparse arguments.apiBase with
  | none => rfl
  | some parsed =>
      obtain ⟨scheme, netloc⟩ := parsed
      apply if_pos
      apply Classical.or_iff_not_imp_left.mpr
      intro hscheme
      rw [not_not.mp hscheme] at hparsed
      exact hbase netloc hparsed

/-- A negative number of retries leaves no attempt, and only the last line is reached; the
option `--retries` takes no such number. -/
theorem callResponsesApi_of_neg {limit : Int} (h : limit < 0)
    {urlparse : Name → Option (Name × Name)} {arguments : Arguments} {netloc : Name}
    (hbase : urlparse arguments.apiBase = some (text "https", netloc)) (hnetloc : netloc ≠ []) :
    callResponsesApi decode outcomes limit urlparse arguments = ⟨[], [], .error .unreachable⟩ := by
  rw [callResponsesApi_of_https hbase hnetloc, Int.toNat_of_nonpos (by omega), List.range_zero,
    requestLoop]

end Bounded

/-! ## A run with two retries -/

/-- The scheme and the location of an URL with `https`, with nothing in its path. -/
def splitHttps (url : Name) : Option (Name × Name) :=
  if (text "https://").isPrefixOf url then some (text "https", url.drop 8) else some ([], [])

/-- The value of a reply whose output text is a JSON text. -/
def shortReply : Json Nat := .obj [(text "output_text", .str (text "null"))]

/-- `shortReply` as it is sent. -/
def shortBody : List Char := "\x7b\n  \"output_text\": \"null\"\n\x7d".toList

/-- A rate limit, a failing connection, and then the same reply for ever. -/
def thirdTime : Nat → Outcome
  | 0 => .httpError 429 []
  | 1 => .urlError []
  | _ + 2 => .reply shortBody

/-- The arguments of a short call. -/
def shortCall : Arguments where
  apiKey := text "key"
  apiBase := text "https://api"
  model := text "m"
  prompt := text "p"
  reasoningEffort := text "low"
  maxOutputTokens := 1
  systemInstructions := []
  responseSchema := .null

theorem readReply_shortBody :
    readReply loads shortBody = .ok (.null, [(text "output_text", .str (text "null"))]) := by
  have hall : shortBody.all (fun c => c.toNat < 0x80) = true := by decide
  have hascii : IsAscii shortBody := by
    intro c hc
    exact of_decide_eq_true (List.all_eq_true.mp hall c hc)
  have hprinted : shortBody.map Char.toNat = dumps (fun _ => []) 0 shortReply := by decide
  have hloads : loads (dumps (fun _ => []) 0 shortReply) = some shortReply :=
    loads_dumps _ ⟨trivial, trivial⟩
  unfold readReply
  rw [utf8Decode_of_isAscii hascii]
  dsimp only
  rw [hprinted, hloads]
  rfl

theorem regular_thirdTime (attempt : Nat) : Regular loads (thirdTime attempt) := by
  intro hreply
  match attempt with
  | 0 =>
      obtain ⟨body, hbody⟩ := hreply
      cases hbody
  | 1 =>
      obtain ⟨body, hbody⟩ := hreply
      cases hbody
  | attempt + 2 => exact ⟨shortBody, _, rfl, readReply_shortBody⟩

end Icflow.Generate
