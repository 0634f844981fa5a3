import MinimaxCode.PyText
import MinimaxCode.Runs
import Mathlib.Logic.Function.Basic

/-!
# The keys of the providers

Each provider has an entry in the keyring of the system, and the built-in one also owns the
global entry of old, which a read copies into its own. Clearing a provider removes both, but
not where its own entry is missing: then the global one stays and comes back at the next read.
-/

namespace MinimaxCode.ProviderKeys

open PyText Runs

/-- The entries of the service, by user name. -/
abbrev Keyring := PyStr → Option PyStr

inductive SecretError
  | valueError (message : PyStr)
  | keyringError

def keyringUsername : PyStr := lit "api_key"

def builtinMinimax : PyStr := lit "builtin-minimax"

def providerUsername (providerId : PyStr) : PyStr := lit "provider:"++providerId

/-- `keyring.set_password`, which may fail. -/
def setPassword (k : Keyring) (username value : PyStr) (stores : Bool) : Except SecretError Keyring :=
  if stores then .ok (Function.update k username (some value)) else .error .keyringError

/-- `keyring.delete_password`, and `none` where it raises `PasswordDeleteError`. -/
def deletePassword (k : Keyring) (username : PyStr) : Option Keyring :=
  if (k username).isSome then some (Function.update k username none) else none

def readKeyringUsername (k : Keyring) (username : PyStr) : Option PyStr :=
  (k username).filter fun value => !value.isEmpty

def readKeyring (k : Keyring) : Option PyStr := readKeyringUsername k keyringUsername

/-- `_read_env`, of what the environment holds. -/
def readEnv (env : Option PyStr) : Option PyStr := env.filter fun value => !value.isEmpty

/-- The two setters, which differ in the entry. -/
def setKey (username : PyStr) (k : Keyring) (value : PyStr) (stores : Bool) : Except SecretError Keyring :=
  if value = [] then .error (.valueError (lit "api key must be a non-empty string"))
  else setPassword k username value stores

def setApiKey (k : Keyring) (value : PyStr) (stores : Bool) : Except SecretError Keyring :=
  setKey keyringUsername k value stores

def clearApiKey (k : Keyring) : Keyring := (deletePassword k keyringUsername).getD k

def setProviderKey (k : Keyring) (providerId value : PyStr) (stores : Bool) : Except SecretError Keyring :=
  setKey (providerUsername providerId) k value stores

/-- The answer of `get_provider_key`, and the keyring that the migration leaves. -/
def getProviderKey (env : Option PyStr) (k : Keyring) (providerId : PyStr) (stores : Bool) :
    Option PyStr × Keyring :=
  match readKeyringUsername k (providerUsername providerId) with
  | some key => (some key,k)
  | none =>
    if providerId = builtinMinimax then
      match readKeyring k with
      | some legacy => (some legacy,(setProviderKey k providerId legacy stores).toOption.getD k)
      | none => (readEnv env,k)
    else (none,k)

def clearProviderKey (k : Keyring) (providerId : PyStr) : Keyring :=
  match deletePassword k (providerUsername providerId) with
  | none => k
  | some k => if providerId = builtinMinimax then clearApiKey k else k

inductive Action
  | setApiKey (value : PyStr) (stores : Bool)
  | clearApiKey
  | getProviderKey (providerId : PyStr) (stores : Bool)
  | setProviderKey (providerId value : PyStr) (stores : Bool)
  | clearProviderKey (providerId : PyStr)

/-- A call, which leaves the keyring as it is where it raises. -/
def step (k : Keyring) : Action → Option Keyring
  | .setApiKey value stores => some ((setApiKey k value stores).toOption.getD k)
  | .clearApiKey => some (clearApiKey k)
  | .getProviderKey providerId stores => some (getProviderKey none k providerId stores).2
  | .setProviderKey providerId value stores =>
    some ((setProviderKey k providerId value stores).toOption.getD k)
  | .clearProviderKey providerId => some (clearProviderKey k providerId)

/-- A call that sets the key of a provider. -/
def Sets (providerId : PyStr) : Action → Prop
  | .setApiKey value stores => providerId = builtinMinimax ∧ value ≠ [] ∧ stores = true
  | .setProviderKey other value stores => other = providerId ∧ value ≠ [] ∧ stores = true
  | _ => False

/-- The answer of a provider without a key in the keyring. -/
def unset (env : Option PyStr) (providerId : PyStr) : Option PyStr :=
  if providerId = builtinMinimax then readEnv env else none

/-- Clearing a provider is final: no later read finds a key in the keyring until one is set,
whatever the environment holds, and the answers of the others do not change. -/
structure Final (k : Keyring) (providerId : PyStr) : Prop where
  cleared : ∀ as k', Run step (fun _ a => ¬ Sets providerId a) (clearProviderKey k providerId) as k' →
    ∀ env stores, (getProviderKey env k' providerId stores).1 = unset env providerId
  others : ∀ other, other ≠ providerId → ∀ env stores,
    (getProviderKey env (clearProviderKey k providerId) other stores).1 = (getProviderKey env k other stores).1

/-- The built-in provider is cleared when it has an entry of its own or there is no global key. -/
def Clearable (k : Keyring) (providerId : PyStr) : Prop :=
  providerId = builtinMinimax → k (providerUsername providerId) ≠ none ∨ readKeyring k = none

section Entries

variable {k : Keyring} {providerId other value : PyStr} {stores : Bool}

theorem providerUsername_inj (h : providerUsername other = providerUsername providerId) :
    other = providerId :=
  List.append_cancel_left h

theorem providerUsername_ne (providerId : PyStr) : providerUsername providerId ≠ keyringUsername := by
  intro h
  have hhead : (providerUsername providerId).head? = keyringUsername.head? := congrArg List.head? h
  exact absurd hhead (show some (ch 'p') ≠ some (ch 'a') by decide)

theorem read_update_ne {username : PyStr} {entry : Option PyStr} {username' : PyStr}
    (h : username' ≠ username) :
    readKeyringUsername (Function.update k username entry) username' = readKeyringUsername k username' := by
  rw [readKeyringUsername,Function.update_of_ne h,readKeyringUsername]

theorem read_update_none (username : PyStr) :
    readKeyringUsername (Function.update k username none) username = none := by
  rw [readKeyringUsername,Function.update_self,Option.filter_none]

theorem setKey_cases (username : PyStr) (k : Keyring) (value : PyStr) (stores : Bool) :
    (setKey username k value stores).toOption.getD k = k ∨ value ≠ [] ∧ stores = true ∧
      (setKey username k value stores).toOption.getD k = Function.update k username (some value) := by
  rw [setKey]
  split
  · exact Or.inl rfl
  case isFalse hvalue =>
    cases stores with
    | false => exact Or.inl rfl
    | true => exact Or.inr ⟨hvalue,rfl,rfl⟩

theorem clearApiKey_read (k : Keyring) : readKeyring (clearApiKey k) = none := by
  rw [clearApiKey,deletePassword]
  split
  · exact read_update_none keyringUsername
  case isFalse hmissing =>
    rw [Option.not_isSome_iff_eq_none] at hmissing
    rw [Option.getD_none,readKeyring,readKeyringUsername,hmissing,Option.filter_none]

theorem clearApiKey_other {username : PyStr} (h : username ≠ keyringUsername) :
    clearApiKey k username = k username := by
  rw [clearApiKey,deletePassword]
  split
  · exact Function.update_of_ne h none k
  · rfl

end Entries

section Gone

variable {k k' : Keyring} {providerId other : PyStr} {stores : Bool}

/-- Nothing in the keyring answers a read of the provider. -/
structure Gone (k : Keyring) (providerId : PyStr) : Prop where
  own : readKeyringUsername k (providerUsername providerId) = none
  legacy : providerId = builtinMinimax → readKeyring k = none

theorem Gone.answer (h : Gone k providerId) (env : Option PyStr) (stores : Bool) :
    (getProviderKey env k providerId stores).1 = unset env providerId := by
  rw [getProviderKey,h.own,unset]
  dsimp only
  split
  case isTrue hbuiltin => rw [h.legacy hbuiltin]
  · rfl

theorem getProviderKey_keyring (env : Option PyStr) (k : Keyring) (providerId : PyStr) (stores : Bool) :
    (getProviderKey env k providerId stores).2 = k ∨ ∃ legacy, providerId = builtinMinimax ∧
      readKeyring k = some legacy ∧ (getProviderKey env k providerId stores).2 =
        (setProviderKey k providerId legacy stores).toOption.getD k := by
  rw [getProviderKey]
  split
  · exact Or.inl rfl
  · split
    case isTrue hbuiltin =>
      split
      case h_1 legacy hlegacy => exact Or.inr ⟨legacy,hbuiltin,hlegacy,rfl⟩
      · exact Or.inl rfl
    · exact Or.inl rfl

theorem clearProviderKey_missing (h : k (providerUsername providerId) = none) :
    clearProviderKey k providerId = k := by
  rw [clearProviderKey,deletePassword,h]
  rfl

theorem clearProviderKey_entry (h : k (providerUsername providerId) ≠ none) :
    clearProviderKey k providerId = if providerId = builtinMinimax
      then clearApiKey (Function.update k (providerUsername providerId) none)
      else Function.update k (providerUsername providerId) none := by
  rw [clearProviderKey,deletePassword,if_pos (Option.isSome_iff_ne_none.mpr h)]

theorem clearProviderKey_other {username : PyStr} (h : username ≠ providerUsername providerId)
    (hglobal : username = keyringUsername → providerId ≠ builtinMinimax) :
    clearProviderKey k providerId username = k username := by
  by_cases hentry : k (providerUsername providerId) = none
  · rw [clearProviderKey_missing hentry]
  · rw [clearProviderKey_entry hentry]
    split
    case isTrue hbuiltin =>
      rw [clearApiKey_other fun hname => hglobal hname hbuiltin,Function.update_of_ne h]
    · exact Function.update_of_ne h none k

theorem clearApiKey_cases (k : Keyring) (username : PyStr) :
    clearApiKey k username = k username ∨ clearApiKey k username = none := by
  by_cases h : username = keyringUsername
  · rw [h,clearApiKey,deletePassword]
    split
    · exact Or.inr (by rw [Option.getD_some,Function.update_self])
    · exact Or.inl rfl
  · exact Or.inl (clearApiKey_other h)

theorem clearProviderKey_cases (k : Keyring) (providerId username : PyStr) :
    clearProviderKey k providerId username = k username ∨ clearProviderKey k providerId username = none := by
  by_cases hentry : k (providerUsername providerId) = none
  · exact Or.inl (by rw [clearProviderKey_missing hentry])
  · have hupdate : Function.update k (providerUsername providerId) none username = k username ∨
        Function.update k (providerUsername providerId) none username = none := by
      rw [Function.update_apply]
      split
      · exact Or.inr rfl
      · exact Or.inl rfl
    rw [clearProviderKey_entry hentry]
    split
    · obtain hsame | hgone := clearApiKey_cases (Function.update k (providerUsername providerId) none) username
      · rw [hsame]
        exact hupdate
      · exact Or.inr hgone
    · exact hupdate

theorem Gone.set (h : Gone k providerId) {username value : PyStr}
    (hown : providerUsername providerId ≠ username)
    (hlegacy : providerId = builtinMinimax → keyringUsername ≠ username) :
    Gone (Function.update k username (some value)) providerId := by
  refine ⟨?_,fun hbuiltin => ?_⟩
  · rw [read_update_ne hown,h.own]
  · rw [readKeyring,read_update_ne (hlegacy hbuiltin),← readKeyring,h.legacy hbuiltin]

theorem gone_step {a : Action} (hsets : ¬ Sets providerId a) (hstep : step k a = some k')
    (h : Gone k providerId) : Gone k' providerId := by
  cases a with
  | setApiKey value stores =>
    cases hstep
    obtain hsame | ⟨hvalue,hstores,hset⟩ := setKey_cases keyringUsername k value stores
    · rw [setApiKey,hsame]
      exact h
    · rw [setApiKey,hset]
      exact h.set (providerUsername_ne providerId) fun hbuiltin => absurd ⟨hbuiltin,hvalue,hstores⟩ hsets
  | clearApiKey =>
    cases hstep
    refine ⟨?_,fun _ => clearApiKey_read k⟩
    rw [readKeyringUsername,clearApiKey_other (providerUsername_ne providerId)]
    exact h.own
  | getProviderKey other stores =>
    cases hstep
    obtain hsame | ⟨legacy,hbuiltin,hlegacy,hkeyring⟩ := getProviderKey_keyring none k other stores
    · rw [hsame]
      exact h
    · have hne : providerId ≠ other := fun heq => by
        rw [h.legacy (heq.trans hbuiltin)] at hlegacy
        cases hlegacy
      rw [hkeyring]
      obtain hsame | ⟨_,_,hset⟩ := setKey_cases (providerUsername other) k legacy stores
      · rw [setProviderKey,hsame]
        exact h
      · rw [setProviderKey,hset]
        exact h.set (fun hname => hne (providerUsername_inj hname)) fun _ => (providerUsername_ne other).symm
  | setProviderKey other value stores =>
    cases hstep
    obtain hsame | ⟨hvalue,hstores,hset⟩ := setKey_cases (providerUsername other) k value stores
    · rw [setProviderKey,hsame]
      exact h
    · rw [setProviderKey,hset]
      refine h.set (fun hname => hsets ⟨?_,hvalue,hstores⟩) fun _ => (providerUsername_ne other).symm
      exact (providerUsername_inj hname).symm
  | clearProviderKey other =>
    cases hstep
    have hread : ∀ username, readKeyringUsername k username = none →
        readKeyringUsername (clearProviderKey k other) username = none := by
      intro username hnone
      obtain hsame | hgone := clearProviderKey_cases k other username
      · rw [readKeyringUsername,hsame]
        exact hnone
      · rw [readKeyringUsername,hgone,Option.filter_none]
    exact ⟨hread _ h.own,fun hbuiltin => hread _ (h.legacy hbuiltin)⟩

theorem gone_clear (h : Clearable k providerId) : Gone (clearProviderKey k providerId) providerId := by
  by_cases hentry : k (providerUsername providerId) = none
  · rw [clearProviderKey_missing hentry]
    refine ⟨?_,fun hbuiltin => (h hbuiltin).resolve_left (not_not_intro hentry)⟩
    rw [readKeyringUsername,hentry,Option.filter_none]
  · rw [clearProviderKey_entry hentry]
    split
    case isTrue hbuiltin =>
      refine ⟨?_,fun _ => clearApiKey_read _⟩
      rw [readKeyringUsername,clearApiKey_other (providerUsername_ne providerId)]
      exact read_update_none _
    case isFalse hother => exact ⟨read_update_none _,fun hbuiltin => absurd hbuiltin hother⟩

theorem answer_congr (hown : k (providerUsername other) = k' (providerUsername other))
    (hlegacy : other = builtinMinimax → k keyringUsername = k' keyringUsername) (env : Option PyStr)
    (stores : Bool) : (getProviderKey env k other stores).1 = (getProviderKey env k' other stores).1 := by
  rw [getProviderKey,getProviderKey,readKeyringUsername,readKeyringUsername,hown]
  split
  · rfl
  · split
    case isTrue hbuiltin =>
      rw [readKeyring,readKeyring,readKeyringUsername,readKeyringUsername,hlegacy hbuiltin]
      split <;> rfl
    · rfl

end Gone

/-- Clearing a provider is final, and leaves the others alone, except for the built-in one
without an entry of its own where there is a global key. The keyring is any, so it is that of
any state of any sequence of calls. -/
theorem final_iff (k : Keyring) (providerId : PyStr) : Final k providerId ↔ Clearable k providerId := by
  constructor
  · intro h hbuiltin
    by_contra hlegacy
    obtain ⟨hmissing,hkey⟩ := not_or.mp hlegacy
    rw [not_not] at hmissing
    obtain ⟨key,hkey⟩ := Option.ne_none_iff_exists'.mp hkey
    have hanswer := h.cleared [] _ (.refl _) none true
    rw [clearProviderKey_missing hmissing,getProviderKey,readKeyringUsername,hmissing,Option.filter_none,unset] at hanswer
    dsimp only at hanswer
    rw [if_pos hbuiltin,if_pos hbuiltin,hkey] at hanswer
    cases hanswer
  · intro h
    refine ⟨fun as k' hrun env stores => ?_,fun other hne env stores => ?_⟩
    · exact (hrun.invariant (fun _ _ _ hsets hstep => gone_step hsets hstep) (gone_clear h)).answer env stores
    · refine answer_congr ?_ (fun hbuiltin => ?_) env stores
      · exact clearProviderKey_other (fun hname => hne (providerUsername_inj hname))
          fun hname => absurd hname (providerUsername_ne other)
      · exact clearProviderKey_other (providerUsername_ne providerId).symm
          fun _ hp => hne (hbuiltin.trans hp.symm)

/-- The keyring of a user who set the key before providers had entries. -/
def legacyOnly : Keyring := fun username => if username = keyringUsername then some (lit "sk-1") else none

/-- The global key outlives the clear. -/
theorem legacy_comes_back : ¬ Final legacyOnly builtinMinimax := by
  intro h
  have hanswer := h.cleared [] _ (.refl _) none false
  exact absurd hanswer (by decide)

end MinimaxCode.ProviderKeys
