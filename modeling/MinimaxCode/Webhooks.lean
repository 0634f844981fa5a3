import MinimaxCode.JsonText
import MinimaxCode.RecordFields
import MinimaxCode.Substrings
import MinimaxCode.TextMode

/-!
# Webhooks

`WebhookReceiver.handle_request` checks the signature of a request, reads its body, and
picks the members of the event out of the JSON tree. The tree comes from outside: a member
that is missing has a default, and a member of another type makes the request raise.
-/

namespace MinimaxCode.Webhooks

open PyText PyJson Substrings

/-- The exceptions a request leaves with. -/
inductive Raised
  | attributeError
  | typeError
  | unicodeEncodeError
  | valueError
  | other

structure WebhookPayload where
  source : PyStr
  event : PyStr
  repo : Json
  branch : Json
  commits : Json
  raw : Json
  action : Json
  pullRequest : Json
  issue : Json
  comment : Json
  tag : Json

/-- A payload with the defaults of its class. -/
def payload (source event : PyStr) (raw : Json) : WebhookPayload where
  source := source
  event := event
  repo := .str []
  branch := .str []
  commits := .arr []
  raw := raw
  action := .str []
  pullRequest := .null
  issue := .null
  comment := .null
  tag := .str []

/-- `json.loads` of a body, and HMAC-SHA256 of a key and a message. -/
structure Library where
  loads : ByteArray → LoadsOutcome
  hmacSha256 : ByteArray → ByteArray → ByteArray

def hexdigest (digest : ByteArray) : PyStr :=
  digest.toList.flatMap fun b => [digitText (b.toNat/16),digitText (b.toNat%16)]

def isAscii (s : PyStr) : Bool := s.all fun c => c.code < 0x80

/-- `hmac.compare_digest` of two strings. -/
def compareDigest (a b : PyStr) : Except Raised Bool :=
  if isAscii a && isAscii b then .ok (a == b) else .error .typeError

/-- The header a signature is compared with. -/
def signatureFor (lib : Library) (key body : ByteArray) : PyStr :=
  lit "sha256="++hexdigest (lib.hmacSha256 key body)

def verifySignature (lib : Library) (body : ByteArray) (secret : Json) (signature : PyStr) :
    Except Raised Bool :=
  if ¬ lit "sha256=" <+: signature then .ok false
  else match secret with
    | .str secret => match TextMode.encode secret with
      | some key => compareDigest (signatureFor lib key body) signature
      | none => .error .unicodeEncodeError
    | _ => .error .attributeError

/-- `v.get(key, default)`; only a dictionary has the method. -/
def dictGet (v : Json) (key : PyStr) (default : Json) : Except Raised Json :=
  match v with
  | .obj fields => .ok ((PyJson.get fields key).getD default)
  | _ => .error .attributeError

/-- `a or b`. -/
def pyOr (a b : Json) : Json := if truthy a then a else b

/-- `v.replace(pat, "")`; only a string has the method. -/
def removeAll (v : Json) (pat : PyStr) : Except Raised Json :=
  match v with
  | .str s => .ok (.str (replace pat [] s))
  | _ => .error .attributeError

def repoOf (raw : Json) : Except Raised Json := do
  dictGet (← dictGet raw (lit "repository") (.obj [])) (lit "full_name") (.str [])

/-- `(raw.get("ref") or "").replace(pat, "")`. -/
def refWithout (raw : Json) (pat : PyStr) : Except Raised Json := do
  removeAll (pyOr (← dictGet raw (lit "ref") .null) (.str [])) pat

/-- `request.get("base", {}).get("ref", "")`. -/
def baseRef (request : Json) : Except Raised Json := do
  dictGet (← dictGet request (lit "base") (.obj [])) (lit "ref") (.str [])

/-- `_parse_github`, behind the repository. -/
def githubPayload (repo : Json) (event : PyStr) (raw : Json) : Except Raised WebhookPayload := do
  let base := {payload (lit "github") event raw with repo := repo}
  if event = lit "push" then
    return {base with
      branch := ← refWithout raw (lit "refs/heads/")
      commits := ← dictGet raw (lit "commits") (.arr [])}
  else if event = lit "pull_request" then
    let pr ← dictGet raw (lit "pull_request") (.obj [])
    return {base with
      branch := ← baseRef pr
      action := ← dictGet raw (lit "action") (.str [])
      pullRequest := pr}
  else if event = lit "issues" then
    return {base with
      action := ← dictGet raw (lit "action") (.str [])
      issue := ← dictGet raw (lit "issue") .null}
  else if event = lit "issue_comment" then
    return {base with
      action := ← dictGet raw (lit "action") (.str [])
      comment := ← dictGet raw (lit "comment") .null}
  else return base

def parseGithub (event : PyStr) (raw : Json) : Except Raised WebhookPayload := do
  githubPayload (← repoOf raw) event raw

/-- `_parse_gitee`, behind the repository. -/
def giteePayload (repo : Json) (event : PyStr) (raw : Json) : Except Raised WebhookPayload := do
  let base := {payload (lit "gitee") event raw with repo := repo}
  if event = lit "push" then
    return {base with
      branch := ← refWithout raw (lit "refs/heads/")
      commits := ← dictGet raw (lit "commits") (.arr [])}
  else if event = lit "merge_request" then
    let mr := pyOr (pyOr (← dictGet raw (lit "pull_request") .null)
      (← dictGet raw (lit "merge_request") .null)) (.obj [])
    return {base with
      branch := ← baseRef mr
      action := ← dictGet raw (lit "action") (.str [])
      pullRequest := mr}
  else if event = lit "note" then
    return {base with
      action := ← dictGet raw (lit "action") (.str [])
      comment := pyOr (← dictGet raw (lit "comment") .null) (← dictGet raw (lit "note") .null)}
  else if event = lit "tag_push" then
    return {base with tag := ← refWithout raw (lit "refs/tags/")}
  else if event = lit "issues" then
    return {base with
      action := ← dictGet raw (lit "action") (.str [])
      issue := ← dictGet raw (lit "issue") .null}
  else return base

def parseGitee (event : PyStr) (raw : Json) : Except Raised WebhookPayload := do
  giteePayload (← repoOf raw) event raw

/-- The first of the headers that is there and not empty. -/
def firstHeader (headers : List (PyStr × PyStr)) (names : List PyStr) (default : PyStr) : PyStr :=
  (names.findSome? fun name => (headers.lookup name).filter fun value => !value.isEmpty).getD default

def signatureOf (headers : List (PyStr × PyStr)) : PyStr :=
  firstHeader headers [lit "x-hub-signature-256",lit "X-Hub-Signature-256"] []

def eventOf (headers : List (PyStr × PyStr)) : PyStr :=
  firstHeader headers [lit "x-github-event",lit "X-GitHub-Event",lit "x-gitee-event",
    lit "X-Gitee-Event"] (lit "custom")

def sourceOf (cfg : List (PyStr × Json)) : Json :=
  (PyJson.get cfg (lit "source")).getD (.str (lit "custom"))

def secretOf (cfg : List (PyStr × Json)) : Json := (PyJson.get cfg (lit "secret")).getD .null

/-- What a body that has been read is dispatched to. -/
def dispatch (source : Json) (event : PyStr) (raw : Json) : Except Raised WebhookPayload :=
  match source with
  | .str source =>
    if source = lit "github" then parseGithub event raw
    else if source = lit "gitee" then parseGitee event raw
    else .ok (payload (lit "custom") event raw)
  | _ => .ok (payload (lit "custom") event raw)

/-- What `handle_request` does with a body behind the check of its signature. -/
def readBody (lib : Library) (cfg : List (PyStr × Json)) (headers : List (PyStr × PyStr))
    (body : ByteArray) : Except Raised (Option WebhookPayload) :=
  match lib.loads body with
  | .value raw => some <$> dispatch (sourceOf cfg) (eventOf headers) raw
  | .decodeError _ => .ok none
  | .valueError _ => .error .valueError
  | .raises => .error .other

def handleRequest (lib : Library) (cfg : List (PyStr × Json)) (headers : List (PyStr × PyStr))
    (body : ByteArray) : Except Raised (Option WebhookPayload) := do
  let verified ←
    if truthy (secretOf cfg) then verifySignature lib body (secretOf cfg) (signatureOf headers)
    else .ok true
  if verified then readBody lib cfg headers body else return none

def isDict : Json → Bool
  | .obj _ => true
  | _ => false

def isStr : Json → Bool
  | .str _ => true
  | _ => false

/-- `fields.get(key, default)`. -/
def member (fields : List (PyStr × Json)) (key : PyStr) (default : Json) : Json :=
  (PyJson.get fields key).getD default

/-- The ref is missing, empty in some way, or a string. -/
def RefReadable (fields : List (PyStr × Json)) : Prop :=
  truthy (member fields (lit "ref") .null) → isStr (member fields (lit "ref") .null)

/-- The request is a dictionary, and so is its base if it has one. -/
def BaseReadable : Json → Prop
  | .obj fields => isDict (member fields (lit "base") (.obj []))
  | _ => False

/-- The pull request or merge request a Gitee event is about. -/
def mergeRequest (fields : List (PyStr × Json)) : Json :=
  pyOr (pyOr (member fields (lit "pull_request") .null) (member fields (lit "merge_request") .null))
    (.obj [])

def GithubReadable (event : PyStr) (raw : Json) : Prop :=
  ∃ fields, raw = .obj fields ∧ isDict (member fields (lit "repository") (.obj [])) ∧
    (event = lit "push" → RefReadable fields) ∧
    (event = lit "pull_request" → BaseReadable (member fields (lit "pull_request") (.obj [])))

def GiteeReadable (event : PyStr) (raw : Json) : Prop :=
  ∃ fields, raw = .obj fields ∧ isDict (member fields (lit "repository") (.obj [])) ∧
    (event = lit "push" → RefReadable fields) ∧
    (event = lit "merge_request" → BaseReadable (mergeRequest fields)) ∧
    (event = lit "tag_push" → RefReadable fields)

/-- The members the event's parser goes through have the types it expects. -/
def Readable (source : Json) (event : PyStr) (raw : Json) : Prop :=
  (source = .str (lit "github") → GithubReadable event raw) ∧
    (source = .str (lit "gitee") → GiteeReadable event raw)

/-- The ref of a push. -/
def refOf : Json → PyStr
  | .obj fields => match pyOr (member fields (lit "ref") .null) (.str []) with
    | .str ref => ref
    | _ => []
  | _ => []

/-- A ref without its leading `refs/heads/`. -/
def withoutLead (ref : PyStr) : PyStr :=
  if lit "refs/heads/" <+: ref then ref.drop 11 else ref

/-- The request is a push of one of the two vendors. -/
def Pushed (source : Json) (event : PyStr) : Prop :=
  (source = .str (lit "github") ∨ source = .str (lit "gitee")) ∧ event = lit "push"

section Request

variable (lib : Library) (cfg : List (PyStr × Json)) (headers : List (PyStr × PyStr))
  (body : ByteArray)

/-- The signature header is the HMAC of the body under the secret. -/
def Signed : Prop := ∃ secret key, secretOf cfg = .str secret ∧
  TextMode.encode secret = some key ∧ signatureOf headers = signatureFor lib key body

/-- What is promised of a request: it is answered, a payload under a secret is signed, and
the branch of a push is its ref without the lead. -/
structure Meets : Prop where
  answers : ∃ answer, handleRequest lib cfg headers body = .ok answer
  authentic : ∀ p, handleRequest lib cfg headers body = .ok (some p) →
    truthy (secretOf cfg) → Signed lib cfg headers body
  branch : ∀ p, handleRequest lib cfg headers body = .ok (some p) →
    Pushed (sourceOf cfg) (eventOf headers) → p.branch = .str (withoutLead (refOf p.raw))

/-- A signature that looks like one can be compared. -/
def Comparable : Prop := lit "sha256=" <+: signatureOf headers →
  (∃ secret key, secretOf cfg = .str secret ∧ TextMode.encode secret = some key) ∧
    isAscii (signatureOf headers)

/-- A body that is read has the members of its event, and the lead of a pushed ref once. -/
def BodyFits : Prop := (∀ message, lib.loads body ≠ .valueError message) ∧
  lib.loads body ≠ .raises ∧ ∀ raw, lib.loads body = .value raw →
    Readable (sourceOf cfg) (eventOf headers) raw ∧
      (Pushed (sourceOf cfg) (eventOf headers) →
        ¬ lit "refs/heads/" <:+: withoutLead (refOf raw))

end Request

def Returns {α : Type} (x : Except Raised α) : Prop := ∃ a, x = .ok a

section Returns

variable {α β : Type} {x : Except Raised α}

@[simp] theorem returns_ok (a : α) : Returns (.ok a : Except Raised α) := ⟨a,rfl⟩

@[simp] theorem returns_pure (a : α) : Returns (pure a : Except Raised α) := ⟨a,rfl⟩

@[simp] theorem not_returns_error (e : Raised) : ¬ Returns (.error e : Except Raised α) := by
  simp [Returns]

theorem bind_eq_ok {f : α → Except Raised β} {b : β} :
    x >>= f = .ok b ↔ ∃ a, x = .ok a ∧ f a = .ok b := by
  cases x with
  | ok a => simp [bind,Except.bind]
  | error e => simp [bind,Except.bind]

theorem returns_bind {f : α → Except Raised β} :
    Returns (x >>= f) ↔ ∃ a, x = .ok a ∧ Returns (f a) := by
  cases x with
  | ok a => simp [bind,Except.bind]
  | error e => simp [bind,Except.bind]

@[simp] theorem returns_map {f : α → β} : Returns (f <$> x) ↔ Returns x := by
  cases x with
  | ok a => simp [Functor.map,Except.map]
  | error e => simp [Functor.map,Except.map]

@[simp] theorem returns_bind_ok {f : α → β} :
    Returns (x >>= fun a => .ok (f a)) ↔ Returns x := by
  cases x with
  | ok a => simp [bind,Except.bind]
  | error e => simp [bind,Except.bind]

end Returns

theorem dictGet_obj (fields : List (PyStr × Json)) (key : PyStr) (default : Json) :
    dictGet (.obj fields) key default = .ok (member fields key default) := rfl

theorem dictGet_returns {v : Json} {key : PyStr} {default : Json} :
    Returns (dictGet v key default) ↔ isDict v := by
  cases v <;> simp [dictGet,isDict]

theorem isDict_iff {v : Json} : isDict v ↔ ∃ fields, v = .obj fields := by
  cases v <;> simp [isDict]

theorem removeAll_returns {v : Json} {pat : PyStr} : Returns (removeAll v pat) ↔ isStr v := by
  cases v <;> simp [removeAll,isStr]

theorem repoOf_obj (fields : List (PyStr × Json)) :
    Returns (repoOf (.obj fields)) ↔ isDict (member fields (lit "repository") (.obj [])) := by
  simp [repoOf,dictGet_obj,dictGet_returns]

theorem refWithout_obj (fields : List (PyStr × Json)) (pat : PyStr) :
    Returns (refWithout (.obj fields) pat) ↔ RefReadable fields := by
  rw [refWithout,dictGet_obj,returns_bind]
  simp only [Except.ok.injEq,exists_eq_left',removeAll_returns,RefReadable,pyOr]
  split
  · next h => simp [h]
  · next h => simp [h,isStr]

theorem refWithout_eq {fields : List (PyStr × Json)} {pat : PyStr} {branch : Json}
    (h : refWithout (.obj fields) pat = .ok branch) :
    branch = .str (replace pat [] (refOf (.obj fields))) := by
  rw [refWithout,dictGet_obj,bind_eq_ok] at h
  obtain ⟨ref,hread,h⟩ := h
  obtain rfl := Except.ok.inj hread
  simp only [refOf]
  cases hv : pyOr (member fields (lit "ref") .null) (.str []) <;> simp_all [removeAll]

theorem baseRef_returns (v : Json) : Returns (baseRef v) ↔ BaseReadable v := by
  cases v with
  | obj fields => simp [baseRef,dictGet_obj,dictGet_returns,BaseReadable]
  | _ => simp [baseRef,dictGet,BaseReadable,bind,Except.bind]

variable {raw : Json} {p : WebhookPayload}

theorem not_returns_repoOf (h : isDict raw = false) : ¬ Returns (repoOf raw) := by
  rw [repoOf,returns_bind]
  rintro ⟨a,ha,-⟩
  have hdict := dictGet_returns.mp ⟨a,ha⟩
  rw [h] at hdict
  exact absurd hdict (by simp)

theorem githubPayload_returns (repo : Json) (event : PyStr) (fields : List (PyStr × Json)) :
    Returns (githubPayload repo event (.obj fields)) ↔
      (event = lit "push" → RefReadable fields) ∧
        (event = lit "pull_request" → BaseReadable (member fields (lit "pull_request") (.obj []))) := by
  have hother : lit "push" ≠ lit "pull_request" := by decide
  have href : (∃ a, _ = Except.ok a) ↔ _ := refWithout_obj fields (lit "refs/heads/")
  have hbase : (∃ a, _ = Except.ok a) ↔ _ :=
    baseRef_returns (member fields (lit "pull_request") (.obj []))
  unfold githubPayload
  split
  · next h => simpa [h,hother,returns_bind,dictGet_obj] using href
  · next hpush =>
    split
    · next h => simpa [h,hother.symm,returns_bind,dictGet_obj] using hbase
    · next hpr => split <;> [skip; split] <;> simp [hpush,hpr,dictGet_obj]

theorem giteePayload_returns (repo : Json) (event : PyStr) (fields : List (PyStr × Json)) :
    Returns (giteePayload repo event (.obj fields)) ↔
      (event = lit "push" → RefReadable fields) ∧
        (event = lit "merge_request" → BaseReadable (mergeRequest fields)) ∧
          (event = lit "tag_push" → RefReadable fields) := by
  have hother : lit "push" ≠ lit "merge_request" ∧ lit "push" ≠ lit "tag_push" ∧
      lit "merge_request" ≠ lit "tag_push" ∧ lit "note" ≠ lit "tag_push" := by decide
  have href : ∀ pat, (∃ a, refWithout (.obj fields) pat = .ok a) ↔ RefReadable fields :=
    refWithout_obj fields
  have hbase : (∃ a, _ = Except.ok a) ↔ _ := baseRef_returns (mergeRequest fields)
  unfold giteePayload
  split
  · next h =>
    simpa [h,hother.1,hother.2.1,returns_bind,dictGet_obj] using href (lit "refs/heads/")
  · next hpush =>
    split
    · next h =>
      simpa [h,hother.1.symm,hother.2.2.1,returns_bind,dictGet_obj,mergeRequest] using hbase
    · next hmr =>
      split
      · next h =>
        rw [h] at hpush hmr
        simp [h,hother.2.2.2,hpush,hmr,dictGet_obj]
      · split
        · next h =>
          simpa [h,hother.2.1.symm,hother.2.2.1.symm] using refWithout_obj fields (lit "refs/tags/")
        · next htag => split <;> simp [hpush,hmr,htag,dictGet_obj]

theorem parse_returns {rest : Json → Json → Except Raised WebhookPayload}
    {P : List (PyStr × Json) → Prop}
    (h : ∀ repo fields, Returns (rest repo (.obj fields)) ↔ P fields) (raw : Json) :
    Returns (repoOf raw >>= fun repo => rest repo raw) ↔
      ∃ fields, raw = .obj fields ∧ isDict (member fields (lit "repository") (.obj [])) ∧ P fields := by
  rw [returns_bind]
  constructor
  · rintro ⟨repo,hrepo,hrest⟩
    cases hraw : isDict raw with
    | false => exact absurd ⟨repo,hrepo⟩ (not_returns_repoOf hraw)
    | true =>
      obtain ⟨fields,rfl⟩ := isDict_iff.mp hraw
      exact ⟨fields,rfl,(repoOf_obj fields).mp ⟨repo,hrepo⟩,(h repo fields).mp hrest⟩
  · rintro ⟨fields,rfl,hdict,hP⟩
    obtain ⟨repo,hrepo⟩ := (repoOf_obj fields).mpr hdict
    exact ⟨repo,hrepo,(h repo fields).mpr hP⟩

theorem parseGithub_returns (event : PyStr) (raw : Json) :
    Returns (parseGithub event raw) ↔ GithubReadable event raw :=
  parse_returns (fun repo fields => githubPayload_returns repo event fields) raw

theorem parseGitee_returns (event : PyStr) (raw : Json) :
    Returns (parseGitee event raw) ↔ GiteeReadable event raw :=
  parse_returns (fun repo fields => giteePayload_returns repo event fields) raw

theorem dispatch_returns (source : Json) (event : PyStr) (raw : Json) :
    Returns (dispatch source event raw) ↔ Readable source event raw := by
  have hother : lit "github" ≠ lit "gitee" := by decide
  cases source with
  | str source =>
    simp only [dispatch,Readable,Json.str.injEq]
    split
    · next h => simp [h,hother,parseGithub_returns]
    · next hgithub =>
      split
      · next h => simp [h,hother.symm,parseGitee_returns]
      · next hgitee => simp [hgithub,hgitee]
  | _ => simp [dispatch,Readable]

theorem githubPayload_push {repo : Json}
    (h : githubPayload repo (lit "push") raw = .ok p) :
    refWithout raw (lit "refs/heads/") = .ok p.branch ∧ p.raw = raw := by
  rw [githubPayload,if_pos rfl,bind_eq_ok] at h
  obtain ⟨branch,hbranch,h⟩ := h
  rw [bind_eq_ok] at h
  obtain ⟨commits,-,h⟩ := h
  cases h
  exact ⟨hbranch,rfl⟩

theorem giteePayload_push {repo : Json}
    (h : giteePayload repo (lit "push") raw = .ok p) :
    refWithout raw (lit "refs/heads/") = .ok p.branch ∧ p.raw = raw := by
  rw [giteePayload,if_pos rfl,bind_eq_ok] at h
  obtain ⟨branch,hbranch,h⟩ := h
  rw [bind_eq_ok] at h
  obtain ⟨commits,-,h⟩ := h
  cases h
  exact ⟨hbranch,rfl⟩

theorem dispatch_push {source : Json} {event : PyStr}
    (hpush : Pushed source event) (h : dispatch source event raw = .ok p) :
    p.branch = .str (replace (lit "refs/heads/") [] (refOf raw)) ∧ p.raw = raw := by
  have hother : lit "gitee" ≠ lit "github" := by decide
  obtain ⟨hsource,rfl⟩ := hpush
  have hread : ∃ repo, repoOf raw = .ok repo ∧
      refWithout raw (lit "refs/heads/") = .ok p.branch ∧ p.raw = raw := by
    obtain rfl | rfl := hsource
    · rw [dispatch,if_pos rfl,parseGithub,bind_eq_ok] at h
      obtain ⟨repo,hrepo,h⟩ := h
      exact ⟨repo,hrepo,githubPayload_push h⟩
    · rw [dispatch,if_neg hother,if_pos rfl,parseGitee,bind_eq_ok] at h
      obtain ⟨repo,hrepo,h⟩ := h
      exact ⟨repo,hrepo,giteePayload_push h⟩
  obtain ⟨repo,hrepo,hbranch,hraw⟩ := hread
  cases hdict : isDict raw with
  | false => exact absurd ⟨repo,hrepo⟩ (not_returns_repoOf hdict)
  | true =>
    obtain ⟨fields,rfl⟩ := isDict_iff.mp hdict
    exact ⟨refWithout_eq hbranch,hraw⟩

theorem replace_lead_iff (ref : PyStr) :
    replace (lit "refs/heads/") [] ref = withoutLead ref ↔
      ¬ lit "refs/heads/" <:+: withoutLead ref := by
  have hne : lit "refs/heads/" ≠ [] := by decide
  unfold withoutLead
  split
  · next h =>
    obtain ⟨rest,rfl⟩ := h
    have hdrop : (lit "refs/heads/"++rest).drop 11 = rest := rfl
    have hrest := replace_eq_self_iff hne rest
    rw [replace,if_neg hne] at hrest ⊢
    rw [hdrop,replaceFrom_append hne,List.nil_append]
    exact hrest
  · exact replace_eq_self_iff hne ref

theorem isAscii_append (a b : PyStr) : isAscii (a++b) = (isAscii a && isAscii b) := List.all_append

theorem isAscii_hexdigest (digest : ByteArray) : isAscii (hexdigest digest) = true := by
  have hdigit : ∀ n < 16, isAscii [digitText n] = true := by decide
  refine List.all_eq_true.mpr fun c hc => ?_
  obtain ⟨b,-,hc⟩ := List.mem_flatMap.mp hc
  have hhigh := hdigit (b.toNat/16) (by have := b.toNat_lt; omega)
  have hlow := hdigit (b.toNat%16) (by omega)
  simp only [List.mem_cons,List.not_mem_nil,or_false] at hc
  obtain rfl | rfl := hc
  · simpa [isAscii] using hhigh
  · simpa [isAscii] using hlow

theorem isAscii_signatureFor (lib : Library) (key body : ByteArray) :
    isAscii (signatureFor lib key body) = true := by
  rw [signatureFor,isAscii_append,isAscii_hexdigest]
  rfl

theorem signatureFor_lead (lib : Library) (key body : ByteArray) :
    lit "sha256=" <+: signatureFor lib key body := List.prefix_append _ _

section Request

variable (lib : Library) (cfg : List (PyStr × Json)) (headers : List (PyStr × PyStr))
  (body : ByteArray)

theorem verifySignature_returns :
    Returns (verifySignature lib body (secretOf cfg) (signatureOf headers)) ↔
      Comparable cfg headers := by
  unfold verifySignature Comparable
  by_cases hlead : lit "sha256=" <+: signatureOf headers
  · rw [if_neg (by simp [hlead])]
    cases hsecret : secretOf cfg with
    | str secret =>
      cases hkey : TextMode.encode secret with
      | none => simp [hkey,hlead]
      | some key =>
        have hexpected := isAscii_signatureFor lib key body
        cases hascii : isAscii (signatureOf headers) <;>
          simp [compareDigest,hexpected,hascii,hlead,hkey]
    | _ => simp [hlead]
  · simp [hlead]

theorem verifySignature_true :
    verifySignature lib body (secretOf cfg) (signatureOf headers) = .ok true ↔
      Signed lib cfg headers body := by
  unfold verifySignature Signed
  by_cases hlead : lit "sha256=" <+: signatureOf headers
  · rw [if_neg (by simp [hlead])]
    cases hsecret : secretOf cfg with
    | str secret =>
      cases hkey : TextMode.encode secret with
      | none => simp [hkey]
      | some key =>
        have hexpected := isAscii_signatureFor lib key body
        cases hascii : isAscii (signatureOf headers) with
        | false =>
          have hne : signatureOf headers ≠ signatureFor lib key body := by
            intro heq
            simp [heq,hexpected] at hascii
          simp [compareDigest,hascii,hkey,hne]
        | true =>
          have heq : (signatureFor lib key body == signatureOf headers) = true ↔
              signatureOf headers = signatureFor lib key body := by
            rw [beq_iff_eq]
            exact eq_comm
          simpa [compareDigest,hexpected,hascii,hkey] using heq
    | _ => simp
  · rw [if_pos hlead]
    constructor
    · simp
    · rintro ⟨secret,key,-,-,heq⟩
      rw [heq] at hlead
      exact absurd (signatureFor_lead lib key body) hlead

/-- The check of a request is passed. -/
def Passed : Prop := truthy (secretOf cfg) → Signed lib cfg headers body

theorem handleRequest_passed (h : Passed lib cfg headers body) :
    handleRequest lib cfg headers body = readBody lib cfg headers body := by
  unfold handleRequest
  split
  · next htruthy =>
    rw [(verifySignature_true lib cfg headers body).mpr (h htruthy)]
    rfl
  · rfl

theorem handleRequest_stopped (h : ¬ Passed lib cfg headers body) :
    (∀ p, handleRequest lib cfg headers body ≠ .ok (some p)) ∧
      (Returns (handleRequest lib cfg headers body) ↔ Comparable cfg headers) := by
  obtain ⟨htruthy,hunsigned⟩ := Classical.not_imp.mp h
  have htrue := verifySignature_true lib cfg headers body
  rw [← verifySignature_returns lib cfg headers body,handleRequest,if_pos htruthy]
  cases hverify : verifySignature lib body (secretOf cfg) (signatureOf headers) with
  | error e => simp [bind,Except.bind]
  | ok verified =>
    cases verified with
    | true => exact absurd (htrue.mp hverify) hunsigned
    | false => simp [bind,Except.bind,pure,Except.pure]

theorem readBody_returns : Returns (readBody lib cfg headers body) ↔
    (∀ message, lib.loads body ≠ .valueError message) ∧ lib.loads body ≠ .raises ∧
      ∀ raw, lib.loads body = .value raw → Readable (sourceOf cfg) (eventOf headers) raw := by
  unfold readBody
  cases lib.loads body <;> simp [dispatch_returns]

theorem readBody_some {p : WebhookPayload} (h : readBody lib cfg headers body = .ok (some p)) :
    ∃ raw, lib.loads body = .value raw ∧
      dispatch (sourceOf cfg) (eventOf headers) raw = .ok p := by
  unfold readBody at h
  cases hloads : lib.loads body with
  | value raw =>
    rw [hloads] at h
    cases hdispatch : dispatch (sourceOf cfg) (eventOf headers) raw with
    | ok q =>
      simp only [hdispatch,Functor.map,Except.map,Except.ok.injEq,Option.some.injEq] at h
      exact ⟨raw,rfl,by rw [hdispatch,h]⟩
    | error e => simp [hdispatch,Functor.map,Except.map] at h
  | decodeError message => simp [hloads] at h
  | valueError message => simp [hloads] at h
  | raises => simp [hloads] at h

theorem comparable_of_signed (h : Signed lib cfg headers body) : Comparable cfg headers := by
  obtain ⟨secret,key,hsecret,hkey,heq⟩ := h
  exact fun _ => ⟨⟨secret,key,hsecret,hkey⟩,by rw [heq,isAscii_signatureFor]⟩

theorem meets_passed (h : Passed lib cfg headers body) :
    Meets lib cfg headers body ↔ BodyFits lib cfg headers body := by
  have hhandle := handleRequest_passed lib cfg headers body h
  constructor
  · rintro ⟨hanswers,-,hbranch⟩
    rw [hhandle] at hanswers hbranch
    obtain ⟨hvalue,hraises,hreadable⟩ := (readBody_returns lib cfg headers body).mp hanswers
    refine ⟨hvalue,hraises,fun raw hloads => ⟨hreadable raw hloads,fun hpush => ?_⟩⟩
    obtain ⟨p,hp⟩ := (dispatch_returns _ _ _).mpr (hreadable raw hloads)
    have hread : readBody lib cfg headers body = .ok (some p) := by
      rw [readBody,hloads]
      simp [hp,Functor.map,Except.map]
    obtain ⟨hreplace,hraw⟩ := dispatch_push hpush hp
    have hpromised := hbranch p hread hpush
    rw [hreplace,hraw,Json.str.injEq] at hpromised
    exact (replace_lead_iff _).mp hpromised
  · rintro ⟨hvalue,hraises,hfits⟩
    refine ⟨?_,fun _ _ => h,fun p hp hpush => ?_⟩
    · rw [hhandle]
      exact (readBody_returns lib cfg headers body).mpr
        ⟨hvalue,hraises,fun raw hloads => (hfits raw hloads).1⟩
    · rw [hhandle] at hp
      obtain ⟨raw,hloads,hdispatch⟩ := readBody_some lib cfg headers body hp
      obtain ⟨hreplace,hraw⟩ := dispatch_push hpush hdispatch
      rw [hreplace,hraw,(replace_lead_iff _).mpr ((hfits raw hloads).2 hpush)]

/-- A request gets what is promised exactly when a signature that looks like one can be
compared under the secret, and the body of a request that passes has the members its event
goes through and no second lead in a pushed ref. -/
theorem request_meets_iff : Meets lib cfg headers body ↔
    (truthy (secretOf cfg) → Comparable cfg headers) ∧
      (Passed lib cfg headers body → BodyFits lib cfg headers body) := by
  by_cases hpassed : Passed lib cfg headers body
  · rw [meets_passed lib cfg headers body hpassed]
    have hcomparable : truthy (secretOf cfg) → Comparable cfg headers :=
      fun htruthy => comparable_of_signed lib cfg headers body (hpassed htruthy)
    exact ⟨fun h => ⟨hcomparable,fun _ => h⟩,fun h => h.2 hpassed⟩
  · obtain ⟨hnone,hreturns⟩ := handleRequest_stopped lib cfg headers body hpassed
    obtain ⟨htruthy,-⟩ := Classical.not_imp.mp hpassed
    constructor
    · rintro ⟨hanswers,-,-⟩
      exact ⟨fun _ => hreturns.mp hanswers,fun h => absurd h hpassed⟩
    · rintro ⟨hcomparable,-⟩
      exact ⟨hreturns.mpr (hcomparable htruthy),fun p hp => absurd hp (hnone p),
        fun p hp => absurd hp (hnone p)⟩

end Request

/-- A library for bodies of ASCII characters. -/
def asciiLibrary : Library where
  loads body := match loads plainFloats (body.data.toList.map fun b => .ofCode b.toNat) with
    | some v => .value v
    | none => .decodeError []
  hmacSha256 _ _ := ⟨#[]⟩

/-- The text of an object whose repository is null. -/
def nullRepository : ByteArray :=
  ⟨#[123,34,114,101,112,111,115,105,116,111,114,121,34,58,32,110,117,108,108,125]⟩

theorem loads_nullRepository :
    asciiLibrary.loads nullRepository = .value (.obj [(lit "repository",.null)]) := rfl

/-- A GitHub event whose repository is null is not answered. -/
theorem null_repository_raises :
    ¬ Meets asciiLibrary [(lit "source",.str (lit "github"))] [(lit "x-github-event",lit "push")]
      nullRepository := by
  have hpassed : Passed asciiLibrary [(lit "source",.str (lit "github"))]
      [(lit "x-github-event",lit "push")] nullRepository := by
    intro htruthy
    exact absurd htruthy (by decide)
  rw [meets_passed _ _ _ _ hpassed]
  rintro ⟨-,-,hfits⟩
  obtain ⟨fields,hfields,hdict,-⟩ := (hfits _ loads_nullRepository).1.1 rfl
  obtain rfl := Json.obj.inj hfields
  exact absurd hdict (by decide)

end MinimaxCode.Webhooks
