import Mathlib.Data.List.DropRight
import MinimaxCode.OrderedDict
import MinimaxCode.PyText
import MinimaxCode.Runs

/-!
# The registry of MCP servers

Attaching a server checks its key, waits for the handshake and then bridges its tools and
records the connection; removing one takes the record and the tools out and waits for the
client to close. Other calls run during both waits.
-/

namespace MinimaxCode.McpRegistry

open PyText OrderedDict Runs

/-- `str.isalnum` of a character and `str.lower`. -/
structure Unicode where
  isalnum : PyChar → Bool
  lower : PyStr → PyStr

variable (u : Unicode)

def stripUnderscores (s : PyStr) : PyStr :=
  (s.dropWhile fun c => c == ch '_').rdropWhile fun c => c == ch '_'

def sanitize (name : PyStr) : PyStr :=
  let safe := u.lower (stripUnderscores (name.map fun c => if u.isalnum c || c == ch '_' then c else ch '_'))
  if safe.isEmpty then lit "anon" else safe

def toolPrefix : PyStr := lit "mcp__"

def bridgedName (server tool : PyStr) : PyStr :=
  toolPrefix++sanitize u server++lit "__"++sanitize u tool

structure ServerConfig where
  name : PyStr
  transport : PyStr
  command : List PyStr
  url : PyStr
  toolStates : List (PyStr × Bool)
  enabled : Bool

/-- A tool of the agent: one of its own, or one of a server with the client that calls it. -/
inductive ToolEntry
  | builtin
  | bridged (server tool : PyStr) (client : ℕ)

structure ServerConn where
  config : ServerConfig
  client : ℕ
  toolNames : List PyStr

/-- The tools of the agent, the connections by key, the clients whose handshake is waited for with
their configurations, and those that are being or have been closed. -/
structure Registry where
  tools : List (PyStr × ToolEntry)
  servers : List (PyStr × ServerConn)
  handshaking : List (ℕ × ServerConfig)
  closing : List ℕ
  closed : List ℕ
  nextClient : ℕ

/-- The name of a tool that is no bridged one. -/
structure BuiltinName where
  name : PyStr
  plain : ¬toolPrefix <+: name

/-- `_build_transport` does not raise. -/
def buildsTransport (config : ServerConfig) : Bool :=
  if u.lower (if config.transport.isEmpty then lit "stdio" else config.transport) = lit "sse" then
    !config.url.isEmpty
  else !config.command.isEmpty

/-- `_register_one`. A tool whose name is taken is left out. -/
def registerOne (disabled : List PyStr) (tc : List (PyStr × ToolEntry) × ServerConn) (mcpTool : PyStr) :
    List (PyStr × ToolEntry) × ServerConn :=
  if mcpTool ∈ disabled then tc
  else
    let name := bridgedName u tc.2.config.name mcpTool
    if name ∈ keys tc.1 then tc
    else (assign tc.1 name (.bridged tc.2.config.name mcpTool tc.2.client),
      { tc.2 with toolNames := tc.2.toolNames++[name] })

def disabledTools (config : ServerConfig) : List PyStr :=
  (config.toolStates.filter fun kv => !kv.2).map Prod.fst

/-- The loop over the listed tools. -/
def registerTools (tools : List (PyStr × ToolEntry)) (conn : ServerConn) (mcpTools : List PyStr) :
    List (PyStr × ToolEntry) × ServerConn :=
  mcpTools.foldl (registerOne u (disabledTools conn.config)) (tools,conn)

inductive Action
  | addServer (config : ServerConfig)
  | handshakeFails (client : ℕ)
  | handshakeDone (client : ℕ) (mcpTools : List PyStr)
  | removeServer (name : PyStr)
  | closeDone (client : ℕ)

namespace Registry

def new (builtins : List BuiltinName) : Registry :=
  ⟨ofItems (builtins.map fun b => (b.name,.builtin)),[],[],[],[],0⟩

/-- `add_server` up to the handshake. A disabled server, a configuration without a transport and a key
that is attached change nothing. -/
def addServer (s : Registry) (config : ServerConfig) : Registry :=
  if config.enabled && buildsTransport u config && !decide (sanitize u config.name ∈ keys s.servers) then
    { s with handshaking := s.handshaking++[(s.nextClient,config)], nextClient := s.nextClient+1 }
  else s

/-- The rest of `_attach_client` behind a handshake that went well. -/
def attach (s : Registry) (client : ℕ) (config : ServerConfig) (mcpTools : List PyStr) : Registry :=
  { s with
    handshaking := remove s.handshaking client
    tools := (registerTools u s.tools ⟨config,client,[]⟩ mcpTools).1
    servers := assign s.servers (sanitize u config.name)
      (registerTools u s.tools ⟨config,client,[]⟩ mcpTools).2 }

/-- `remove_server` up to the closing of the client. -/
def detach (s : Registry) (name : PyStr) : Registry :=
  match lookup s.servers (sanitize u name) with
  | none => s
  | some conn =>
    { s with
      servers := remove s.servers (sanitize u name)
      tools := conn.toolNames.foldl remove s.tools
      closing := s.closing++[conn.client] }

def step (s : Registry) : Action → Option Registry
  | .addServer config => some (s.addServer u config)
  | .handshakeFails client =>
    match lookup s.handshaking client with
    | none => none
    | some _ => some { s with
        handshaking := remove s.handshaking client, closing := s.closing++[client] }
  | .handshakeDone client mcpTools =>
    match lookup s.handshaking client with
    | none => none
    | some config => some (s.attach u client config mcpTools)
  | .removeServer name => some (s.detach u name)
  | .closeDone client =>
    if client ∈ s.closing then
      some { s with closing := s.closing.erase client, closed := s.closed++[client] }
    else none

/-- The client that a call of the tool goes to. -/
def dispatch (s : Registry) (name : PyStr) : Option ℕ :=
  match lookup s.tools name with
  | some (.bridged server _ client) =>
    if (lookup s.servers (sanitize u server)).isSome then some client else none
  | _ => none

def attached (s : Registry) : List ℕ := s.servers.map fun kc => kc.2.client

/-- All clients that are accounted for. -/
def clients (s : Registry) : List ℕ := keys s.handshaking++s.attached++s.closing++s.closed

/-- The bridged tools are those of the attached servers, each goes to its own server, no client is
dropped, and a client that was taken out has no tool. -/
structure Bridged (s : Registry) : Prop where
  names : ∀ n, toolPrefix <+: n → ((lookup s.tools n).isSome ↔ ∃ kc ∈ s.servers, n ∈ kc.2.toolNames)
  disjoint : (s.servers.flatMap fun kc => kc.2.toolNames).Nodup
  dispatches : ∀ kc ∈ s.servers, ∀ n ∈ kc.2.toolNames, s.dispatch u n = some kc.2.client
  kept : ∀ c < s.nextClient, c ∈ s.clients
  removed : ∀ c ∈ s.closing++s.closed, ∀ n server tool, lookup s.tools n ≠ some (.bridged server tool c)

/-- A handshake ends while no other server has its key. -/
def Keeps (s : Registry) : Action → Prop
  | .handshakeDone client _ =>
    ∀ config, lookup s.handshaking client = some config → sanitize u config.name ∉ keys s.servers
  | _ => True

end Registry

variable {u} {s t : Registry} {tools : List (PyStr × ToolEntry)} {conn : ServerConn} {n : PyStr}

theorem toolPrefix_bridgedName (server tool : PyStr) : toolPrefix <+: bridgedName u server tool := by
  rw [bridgedName,List.append_assoc,List.append_assoc]
  exact List.prefix_append _ _

/-- What registering tools adds: names that were free, bridged to the client, listed once. -/
structure Registered (conn : ServerConn) (tools tools' : List (PyStr × ToolEntry)) (added : List PyStr) :
    Prop where
  nodup : added.Nodup
  free : ∀ n ∈ added, n ∉ keys tools
  bridged : ∀ n ∈ added, toolPrefix <+: n ∧ ∃ tool,
    lookup tools' n = some (.bridged conn.config.name tool conn.client)
  others : ∀ n ∉ added, lookup tools' n = lookup tools n
  keys_eq : keys tools' = keys tools++added

theorem registered_foldl (disabled mcpTools : List PyStr) (tools : List (PyStr × ToolEntry))
    (conn : ServerConn) :
    ∃ added, (mcpTools.foldl (registerOne u disabled) (tools,conn)).2 =
        { conn with toolNames := conn.toolNames++added } ∧
      Registered conn tools (mcpTools.foldl (registerOne u disabled) (tools,conn)).1 added := by
  induction mcpTools generalizing tools conn with
  | nil => exact ⟨[],by simp,List.nodup_nil,by simp,by simp,fun _ _ => rfl,by simp⟩
  | cons tool rest ih =>
    rw [List.foldl_cons,registerOne]
    split
    · exact ih tools conn
    · dsimp only
      split
      · exact ih tools conn
      · next hfree =>
        -- the name of the tool comes first, and the rest is added to the dictionary with it
        obtain ⟨added,hconn,hadded⟩ := ih (assign tools (bridgedName u conn.config.name tool)
          (.bridged conn.config.name tool conn.client))
          { conn with toolNames := conn.toolNames++[bridgedName u conn.config.name tool] }
        have hkeys := keys_assign_of_new hfree (.bridged conn.config.name tool conn.client)
        have hnew : bridgedName u conn.config.name tool ∉ added := by
          intro hmem
          refine hadded.free _ hmem ?_
          rw [hkeys]
          exact List.mem_append_right _ List.mem_cons_self
        refine ⟨bridgedName u conn.config.name tool::added,?_,?_,?_,?_,?_,?_⟩
        · rw [hconn]
          simp
        · exact List.nodup_cons.mpr ⟨hnew,hadded.nodup⟩
        · intro n hn
          cases hn with
          | head => exact hfree
          | tail _ hn =>
            intro hmem
            refine hadded.free n hn ?_
            rw [hkeys]
            exact List.mem_append_left _ hmem
        · intro n hn
          cases hn with
          | head =>
            refine ⟨toolPrefix_bridgedName _ _,tool,?_⟩
            rw [hadded.others _ hnew,lookup_assign,if_pos rfl]
          | tail _ hn => exact hadded.bridged n hn
        · intro n hn
          rw [List.mem_cons,not_or] at hn
          rw [hadded.others n hn.2,lookup_assign,if_neg (Ne.symm hn.1)]
        · rw [hadded.keys_eq,hkeys,List.append_assoc]
          rfl

theorem lookup_foldl_remove (names : List PyStr) (tools : List (PyStr × ToolEntry)) (n : PyStr) :
    lookup (names.foldl remove tools) n = if n ∈ names then none else lookup tools n := by
  induction names generalizing tools with
  | nil => simp
  | cons name rest ih =>
    rw [List.foldl_cons,ih,lookup_remove]
    by_cases hrest : n ∈ rest
    · rw [if_pos hrest,if_pos (List.mem_cons_of_mem _ hrest)]
    · by_cases hname : name = n
      · simp [hname]
      · simp [hrest,hname,Ne.symm hname]

namespace Registry

structure Inv (u : Unicode) (s : Registry) : Prop where
  serverKeys : (keys s.servers).Nodup
  keyed : ∀ kc ∈ s.servers, kc.1 = sanitize u kc.2.config.name
  distinct : s.clients.Nodup
  known : ∀ c, c ∈ s.clients ↔ c < s.nextClient
  listed : ∀ kc ∈ s.servers, ∀ n ∈ kc.2.toolNames, toolPrefix <+: n ∧
    ∃ tool, lookup s.tools n = some (.bridged kc.2.config.name tool kc.2.client)
  bridged : ∀ n server tool c, lookup s.tools n = some (.bridged server tool c) →
    ∃ kc ∈ s.servers, kc.2.client = c ∧ n ∈ kc.2.toolNames
  builtin : ∀ n, lookup s.tools n = some .builtin → ¬toolPrefix <+: n
  disjoint : (s.servers.flatMap fun kc => kc.2.toolNames).Nodup

theorem Inv.new (builtins : List BuiltinName) : Inv u (.new builtins) := by
  have hlookup : ∀ n e, lookup (ofItems (builtins.map fun b => (b.name,ToolEntry.builtin))) n = some e →
      e = .builtin ∧ ¬toolPrefix <+: n := by
    intro n e h
    obtain ⟨b,-,heq⟩ := List.mem_map.mp (mem_of_mem_ofItems (mem_of_lookup h))
    cases heq
    exact ⟨rfl,b.plain⟩
  refine ⟨List.nodup_nil,by simp [Registry.new],List.nodup_nil,fun c => by
    simp [Registry.new,clients,attached,keys],by simp [Registry.new],?_,fun n h => (hlookup n _ h).2,
    List.nodup_nil⟩
  intro n server tool c h
  cases (hlookup n _ h).1

theorem Inv.bridgedNames (h : Inv u s) : Bridged u s where
  names n hn := by
    constructor
    · intro hsome
      obtain ⟨e,he⟩ := Option.isSome_iff_exists.mp hsome
      cases e with
      | builtin => exact absurd hn (h.builtin n he)
      | bridged server tool c =>
        obtain ⟨kc,hkc,-,hmem⟩ := h.bridged n server tool c he
        exact ⟨kc,hkc,hmem⟩
    · rintro ⟨kc,hkc,hmem⟩
      obtain ⟨-,tool,htool⟩ := h.listed kc hkc n hmem
      rw [htool]
      rfl
  disjoint := h.disjoint
  dispatches kc hkc n hmem := by
    obtain ⟨-,tool,htool⟩ := h.listed kc hkc n hmem
    have hserver : lookup s.servers (sanitize u kc.2.config.name) = some kc.2 :=
      lookup_of_mem h.serverKeys (by rw [← h.keyed kc hkc]; exact hkc)
    simp only [dispatch,htool,hserver,Option.isSome_some,if_true]
  kept c hc := (h.known c).mpr hc
  removed c hc n server tool htool := by
    obtain ⟨kc,hkc,rfl,-⟩ := h.bridged n server tool c htool
    have hattached : kc.2.client ∈ keys s.handshaking++s.attached :=
      List.mem_append_right _ (List.mem_map.mpr ⟨kc,hkc,rfl⟩)
    have hdistinct := h.distinct
    rw [clients,List.append_assoc] at hdistinct
    exact (List.nodup_append.mp hdistinct).2.2 _ hattached _ hc rfl

theorem Inv.attached_nodup (h : Inv u s) : s.attached.Nodup := by
  have hdistinct := h.distinct
  rw [clients,List.append_assoc,List.append_assoc] at hdistinct
  exact (List.nodup_append.mp (List.nodup_append.mp hdistinct).2.1).1

theorem Inv.handshaking_nodup (h : Inv u s) : (keys s.handshaking).Nodup := by
  have hdistinct := h.distinct
  rw [clients,List.append_assoc,List.append_assoc] at hdistinct
  exact (List.nodup_append.mp hdistinct).1

theorem Inv.of_perm (h : Inv u s) (hperm : t.clients.Perm s.clients) (hservers : t.servers = s.servers)
    (htools : t.tools = s.tools) (hnext : t.nextClient = s.nextClient) : Inv u t where
  serverKeys := by rw [hservers]; exact h.serverKeys
  keyed := by rw [hservers]; exact h.keyed
  distinct := hperm.nodup_iff.mpr h.distinct
  known c := by rw [hperm.mem_iff,hnext]; exact h.known c
  listed := by rw [hservers,htools]; exact h.listed
  bridged := by rw [hservers,htools]; exact h.bridged
  builtin := by rw [htools]; exact h.builtin
  disjoint := by rw [hservers]; exact h.disjoint

theorem Inv.addServer (h : Inv u s) (config : ServerConfig) : Inv u (s.addServer u config) := by
  rw [Registry.addServer]
  split
  · have hclients : (clients { s with
        handshaking := s.handshaking++[(s.nextClient,config)], nextClient := s.nextClient+1 }).Perm
        (s.nextClient::s.clients) := by
      rw [clients,clients,keys,List.map_append,List.map_singleton,List.append_assoc,List.append_assoc,
        List.append_assoc,List.append_assoc,List.append_assoc]
      exact List.perm_middle
    have hnew : s.nextClient ∉ s.clients := fun hmem => Nat.lt_irrefl _ ((h.known _).mp hmem)
    refine ⟨h.serverKeys,h.keyed,hclients.nodup_iff.mpr (List.nodup_cons.mpr ⟨hnew,h.distinct⟩),fun c => ?_,
      h.listed,h.bridged,h.builtin,h.disjoint⟩
    rw [hclients.mem_iff,List.mem_cons,h.known]
    exact (Nat.lt_succ_iff_lt_or_eq.trans or_comm).symm
  · exact h

theorem clients_perm {a a' b b' c c' d d' : List ℕ}
    (h : ∀ x, a'.count x+b'.count x+c'.count x+d'.count x = a.count x+b.count x+c.count x+d.count x) :
    (a'++b'++c'++d').Perm (a++b++c++d) := by
  rw [List.perm_iff_count]
  intro x
  simp only [List.count_append]
  exact h x

variable {c : ℕ} {config : ServerConfig}

theorem count_remove {d : List (ℕ × ServerConfig)} (hd : (keys d).Nodup)
    (h : lookup d c = some config) (x : ℕ) : (keys d).count x = [c].count x+(keys (remove d c)).count x := by
  have hperm := ((perm_cons_remove hd h).map Prod.fst).count_eq x
  rw [List.map_cons,← List.singleton_append,List.count_append] at hperm
  exact hperm.symm

theorem Inv.handshakeFails (h : Inv u s)
    (hc : lookup s.handshaking c = some config) :
    Inv u { s with handshaking := remove s.handshaking c, closing := s.closing++[c] } := by
  refine h.of_perm (clients_perm fun x => ?_) rfl rfl rfl
  have hcount := count_remove h.handshaking_nodup hc x
  simp only [attached,List.count_append]
  omega

theorem Inv.closeDone (h : Inv u s) (hc : c ∈ s.closing) :
    Inv u { s with closing := s.closing.erase c, closed := s.closed++[c] } := by
  refine h.of_perm (clients_perm fun x => ?_) rfl rfl rfl
  have hcount := (List.perm_cons_erase hc).count_eq x
  rw [← List.singleton_append,List.count_append] at hcount
  simp only [attached,List.count_append]
  omega

theorem Inv.attach (h : Inv u s) (hc : lookup s.handshaking c = some config)
    (hkey : sanitize u config.name ∉ keys s.servers) (mcpTools : List PyStr) :
    Inv u (s.attach u c config mcpTools) := by
  obtain ⟨added,hconn,hadded⟩ :=
    registered_foldl (u := u) (disabledTools config) mcpTools s.tools ⟨config,c,[]⟩
  have hservers : (s.attach u c config mcpTools).servers =
      s.servers++[(sanitize u config.name,⟨config,c,added⟩)] := by
    rw [Registry.attach,assign_of_new hkey]
    dsimp only
    rw [registerTools,hconn]
    rfl
  have hnew : c ∉ s.attached := by
    intro hmem
    have hdistinct := h.distinct
    rw [clients,List.append_assoc,List.append_assoc] at hdistinct
    have hhandshaking : c ∈ keys s.handshaking := List.mem_map_of_mem (mem_of_lookup hc)
    exact (List.nodup_append.mp hdistinct).2.2 c hhandshaking c (List.mem_append_left _ hmem) rfl
  have hclients : (s.attach u c config mcpTools).clients.Perm s.clients := by
    have hattached : (s.attach u c config mcpTools).attached = s.attached++[c] := by
      rw [attached,hservers,List.map_append]
      rfl
    rw [clients,hattached]
    refine clients_perm fun x => ?_
    have hcount := count_remove h.handshaking_nodup hc x
    rw [List.count_append]
    show (keys (remove s.handshaking c)).count x+_+s.closing.count x+s.closed.count x = _
    omega
  -- the listed names are old keys of the tools, the added ones are new
  have hold : ∀ kc ∈ s.servers, ∀ n ∈ kc.2.toolNames, n ∉ added := by
    intro kc hkc n hn hmem
    obtain ⟨-,tool,htool⟩ := h.listed kc hkc n hn
    exact hadded.free n hmem (List.mem_map_of_mem (mem_of_lookup htool))
  refine ⟨?_,fun kc hkc => ?_,hclients.nodup_iff.mpr h.distinct,fun x => ?_,fun kc hkc n hn => ?_,
    fun n server tool x htool => ?_,fun n hbuiltin => ?_,?_⟩
  · rw [hservers,keys,List.map_append,List.map_singleton,List.nodup_append_comm]
    exact List.nodup_cons.mpr ⟨hkey,h.serverKeys⟩
  · rw [hservers,List.mem_append,List.mem_singleton] at hkc
    obtain hkc | rfl := hkc
    · exact h.keyed kc hkc
    · rfl
  · rw [hclients.mem_iff,h.known]
    rfl
  · rw [hservers,List.mem_append,List.mem_singleton] at hkc
    obtain hkc | rfl := hkc
    · obtain ⟨hpre,tool,htool⟩ := h.listed kc hkc n hn
      exact ⟨hpre,tool,(hadded.others n (hold kc hkc n hn)).trans htool⟩
    · exact hadded.bridged n hn
  · rw [hservers]
    by_cases hmem : n ∈ added
    · obtain ⟨-,tool',htool'⟩ := hadded.bridged n hmem
      have heq := htool.symm.trans htool'
      cases heq
      exact ⟨_,List.mem_append_right _ List.mem_cons_self,rfl,hmem⟩
    · obtain ⟨kc,hkc,hclient,hn⟩ := h.bridged n server tool x ((hadded.others n hmem).symm.trans htool)
      exact ⟨kc,List.mem_append_left _ hkc,hclient,hn⟩
  · by_cases hmem : n ∈ added
    · obtain ⟨-,tool',htool'⟩ := hadded.bridged n hmem
      cases hbuiltin.symm.trans htool'
    · exact h.builtin n ((hadded.others n hmem).symm.trans hbuiltin)
  · rw [hservers,List.flatMap_append,List.flatMap_singleton]
    refine List.nodup_append.mpr ⟨h.disjoint,hadded.nodup,fun n hn n' hn' heq => ?_⟩
    obtain ⟨kc,hkc,hmem⟩ := List.mem_flatMap.mp hn
    exact hold kc hkc n hmem (heq ▸ hn')

theorem Inv.detach (h : Inv u s) (name : PyStr) : Inv u (s.detach u name) := by
  rw [Registry.detach]
  split
  · exact h
  · next conn hconn =>
    have hmem := mem_of_lookup hconn
    have hservers : ((sanitize u name,conn)::remove s.servers (sanitize u name)).Perm s.servers :=
      perm_cons_remove h.serverKeys hconn
    have hdisjoint : (conn.toolNames++(remove s.servers (sanitize u name)).flatMap fun kc => kc.2.toolNames).Nodup := by
      have hperm := hservers.flatMap_right fun kc => kc.2.toolNames
      rw [List.flatMap_cons] at hperm
      exact hperm.nodup_iff.mpr h.disjoint
    have hother : ∀ kc ∈ remove s.servers (sanitize u name), ∀ n ∈ kc.2.toolNames, n ∉ conn.toolNames :=
      fun kc hkc n hn hn' => (List.nodup_append.mp hdisjoint).2.2 n hn' n
        (List.mem_flatMap.mpr ⟨kc,hkc,hn⟩) rfl
    have hkeep : ∀ kc ∈ remove s.servers (sanitize u name), kc ∈ s.servers :=
      fun kc hkc => List.mem_of_mem_filter hkc
    have hclients : (keys s.handshaking++(remove s.servers (sanitize u name)).map (fun kc => kc.2.client)++
        (s.closing++[conn.client])++s.closed).Perm s.clients := by
      refine clients_perm fun x => ?_
      have hcount := (hservers.map fun kc => kc.2.client).count_eq x
      rw [List.map_cons,← List.singleton_append,List.count_append] at hcount
      dsimp only at hcount
      rw [List.count_append,attached]
      omega
    refine ⟨nodup_keys_remove h.serverKeys,fun kc hkc => h.keyed kc (hkeep kc hkc),
      hclients.nodup_iff.mpr h.distinct,fun x => hclients.mem_iff.trans (h.known x),
      fun kc hkc n hn => ?_,fun n server tool x htool => ?_,fun n hbuiltin => ?_,
      (List.nodup_append.mp hdisjoint).2.1⟩
    · obtain ⟨hpre,tool,htool⟩ := h.listed kc (hkeep kc hkc) n hn
      refine ⟨hpre,tool,?_⟩
      rw [lookup_foldl_remove,if_neg (hother kc hkc n hn)]
      exact htool
    · rw [lookup_foldl_remove] at htool
      split at htool
      · cases htool
      · next hn =>
        obtain ⟨kc,hkc,hclient,hlisted⟩ := h.bridged n server tool x htool
        rcases List.mem_cons.mp (hservers.mem_iff.mpr hkc) with rfl | hkc'
        · exact absurd hlisted hn
        · exact ⟨kc,hkc',hclient,hlisted⟩
    · rw [lookup_foldl_remove] at hbuiltin
      split at hbuiltin
      · cases hbuiltin
      · exact h.builtin n hbuiltin

theorem Inv.step {a : Action} (h : Inv u s) (hk : Keeps u s a) (hs : s.step u a = some t) : Inv u t := by
  cases a with
  | addServer config =>
    cases hs
    exact h.addServer config
  | handshakeFails client =>
    rw [Registry.step] at hs
    split at hs
    · cases hs
    · next config hc =>
      cases hs
      exact h.handshakeFails hc
  | handshakeDone client mcpTools =>
    rw [Registry.step] at hs
    split at hs
    · cases hs
    · next config hc =>
      cases hs
      exact h.attach hc (hk config hc) mcpTools
  | removeServer name =>
    cases hs
    exact h.detach name
  | closeDone client =>
    rw [Registry.step] at hs
    split at hs
    · next hc =>
      cases hs
      exact h.closeDone hc
    · cases hs

theorem dropped_of_attach (h : Inv u s) {mcpTools : List PyStr}
    (hc : lookup s.handshaking c = some config) (hkey : sanitize u config.name ∈ keys s.servers) :
    ¬Bridged u (s.attach u c config mcpTools) := by
  intro hbridged
  obtain ⟨kc,hkc,hkc'⟩ := List.mem_map.mp hkey
  have hdistinct := h.distinct
  rw [clients,List.append_assoc,List.append_assoc] at hdistinct
  have hattached : kc.2.client ∈ s.attached := List.mem_map.mpr ⟨kc,hkc,rfl⟩
  have hhandshaking : c ∈ keys s.handshaking := List.mem_map_of_mem (mem_of_lookup hc)
  obtain ⟨-,hrest,hapart⟩ := List.nodup_append.mp hdistinct
  have hold : kc.2.client < s.nextClient :=
    (h.known _).mp (by
      rw [clients,List.append_assoc,List.append_assoc]
      exact List.mem_append_right _ (List.mem_append_left _ hattached))
  have hkept : kc.2.client ∈ (s.attach u c config mcpTools).clients := hbridged.kept _ hold
  rw [clients,List.append_assoc,List.append_assoc] at hkept
  rcases List.mem_append.mp hkept with hmem | hmem
  · -- it is not one of those whose handshake is waited for
    have hmem' : kc.2.client ∈ keys s.handshaking := (mem_keys_remove hmem).2
    exact hapart _ hmem' _ (List.mem_append_left _ hattached) rfl
  · rcases List.mem_append.mp hmem with hmem | hmem
    · -- its key belongs to the new connection
      obtain ⟨kc',hmem',hclient⟩ := List.mem_map.mp hmem
      have hconn : (registerTools u s.tools ⟨config,c,[]⟩ mcpTools).2.client = c := by
        obtain ⟨added,hadded,-⟩ :=
          registered_foldl (u := u) (disabledTools config) mcpTools s.tools ⟨config,c,[]⟩
        rw [registerTools,hadded]
      have hne : kc.2.client ≠ c := by
        intro heq
        exact hapart c hhandshaking _ (List.mem_append_left _ hattached) heq.symm
      rcases mem_assign hmem' with rfl | hin
      · exact hne (hclient.symm.trans hconn)
      · have hsame : kc' = kc := List.inj_on_of_nodup_map h.attached_nodup hin hkc hclient
        have hlookup := lookup_of_mem (nodup_keys_assign h.serverKeys) (show (kc'.1,kc'.2) ∈ _ from hmem')
        rw [lookup_assign,if_pos (by rw [hsame,hkc'])] at hlookup
        rw [← hconn,Option.some.inj hlookup] at hne
        exact hne hclient.symm
    · -- it is neither being closed nor closed
      exact (List.nodup_append.mp hrest).2.2 _ hattached _ hmem rfl

theorem keeps_of_bridged {a : Action} (h : Inv u s) (hs : s.step u a = some t) (hb : Bridged u t) :
    Keeps u s a := by
  cases a with
  | handshakeDone client mcpTools =>
    rw [Registry.step] at hs
    split at hs
    · cases hs
    · next config hc =>
      cases hs
      intro config' hc'
      rw [hc] at hc'
      cases hc'
      exact fun hkey => dropped_of_attach h hc hkey hb
  | _ => trivial

/-- Along the calls the bridged tools and the attached servers agree exactly when no handshake ends
while another server has taken its key. -/
theorem bridged_throughout_iff (u : Unicode) (builtins : List BuiltinName) {as : List Action}
    (h : Run (Registry.step u) always (.new builtins) as t) :
    Throughout (Registry.step u) (Bridged u) (.new builtins) as ↔
      Run (Registry.step u) (Keeps u) (.new builtins) as t := by
  have hinv : ∀ (s : Registry) a t, always s a → s.step u a = some t → Inv u s → Bridged u s →
      Bridged u t → Inv u t := fun s a t _ hs hi _ ht => hi.step (keeps_of_bridged hi hs ht) hs
  have hstep : ∀ (s : Registry) a t, always s a → s.step u a = some t → Inv u s → Bridged u s →
      (Bridged u t ↔ Keeps u s a) :=
    fun s a t _ hs hi _ => ⟨keeps_of_bridged hi hs,fun hk => (hi.step hk hs).bridgedNames⟩
  exact throughout_iff hinv hstep h (.new builtins) (Inv.new builtins).bridgedNames

def asciiUnicode : Unicode := ⟨fun _ => true,id⟩

def searchServer : ServerConfig := ⟨lit "search",lit "stdio",[lit "run"],[],[],true⟩

/-- A server is attached, removed and closed. -/
def attachedRun : List Action :=
  [.addServer searchServer,.handshakeDone 0 [lit "find"],.removeServer (lit "search"),.closeDone 0]

theorem bridged_attached : Throughout (Registry.step asciiUnicode) (Bridged asciiUnicode) (.new [])
    attachedRun := by
  have hrun : ∃ t, Run (Registry.step asciiUnicode) (Keeps asciiUnicode) (.new []) attachedRun t := by
    refine ⟨_,.succ trivial rfl (.succ ?_ rfl (.succ trivial rfl (.succ trivial rfl (.refl _))))⟩
    intro config _ hmem
    exact absurd hmem List.not_mem_nil
  obtain ⟨t,hkeeps⟩ := hrun
  exact (bridged_throughout_iff asciiUnicode [] (hkeeps.mono fun _ _ _ => trivial)).mpr hkeeps

/-- Two handshakes for one name overlap, and both go well. -/
def overlappingRun : List Action :=
  [.addServer searchServer,.addServer searchServer,.handshakeDone 0 [lit "find"],
    .handshakeDone 1 [lit "find"]]

/-- The second connection takes the place of the first, whose client is never closed and whose tool no
server lists. -/
theorem overlapping_drops_client : ∃ t,
    Run (Registry.step asciiUnicode) always (.new []) overlappingRun t ∧ 0 ∉ t.clients ∧
    t.servers.map (fun kc => (kc.2.client,kc.2.toolNames)) = [(1,[])] ∧
    keys t.tools = [lit "mcp__search__find"] ∧ ¬Bridged asciiUnicode t :=
  ⟨_,run_of_exec rfl,by decide,by decide,by decide,fun h => absurd (h.kept 0 (by decide)) (by decide)⟩

end Registry

end MinimaxCode.McpRegistry
