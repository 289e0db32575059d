import Synsema.Server.Routing

/-!
# The plan and the route that answers

The transport plans how a request is attended before the route that answers it is known: the plan
looks the path up as it stands, `dispatch` also without a format suffix.  The plan describes the
route that answers exactly where a suffix that is negotiated leads to a route like the one the path
has as it stands (`planLaw_iff`).
-/

namespace Synsema.Server.ServeRuntime

open Text

variable {rt : ServeRuntime} {method path : Text} {headers : Headers}

/-- The plan describes the route. -/
structure Describes (plan : RoutePlan) (r : RouteSpec) (defaultTimeout : Option F64) : Prop where
  dedicated : plan.dedicated = (r.streaming || r.socket)
  socket : plan.socket = r.socket
  proxy : plan.proxy = (r.proxyTarget.isSome || r.proxyDynamic)
  streamBody : plan.streamBody = (r.proxyTarget.isSome || (r.proxyDynamic && !r.proxyReadsBody))
  timeout : plan.timeout = r.limit defaultTimeout

/-- What is said of a request: the plan describes the route that answers; and where the request is
attended, a stream or a socket has a thread of its own, the limit is the route's, and a socket comes
with an upgrade that was validated. -/
def PlanLaw (rt : ServeRuntime) (method path : Text) (headers : Headers) : Prop :=
  ∀ r params fmt, rt.resolve (effMethod method) path headers = .attended r params fmt →
    Describes (rt.routePlan (effMethod method) path headers) r rt.defaultTimeout ∧
      ∀ env job, rt.attendRequest method path headers env = .ok job →
        (job.result = .stream ∨ job.result = .socket → job.dedicated = true) ∧
          job.timeout = r.limit rt.defaultTimeout ∧
          (job.result = .socket → job.upgrade.isSome = true)

/-- A route found without the suffix of the path. -/
structure Negotiated (rt : ServeRuntime) (method path : Text) (headers : Headers) (r : RouteSpec) :
    Prop where
  router : rt.preRouter method path = none
  reserved : rt.reservedFirst method path headers = none
  negotiates : rt.negotiates method path headers = true
  static : (rt.hostOf headers).serveStatic method path headers = none
  found : ∃ logical fmt params, splitFormatSuffix path = (logical, some fmt) ∧
    (rt.hostOf headers).matchRoute method logical = some (r, params)

/-- Two routes are attended alike. -/
def Alike (defaultTimeout : Option F64) (r r' : RouteSpec) : Prop :=
  (r.streaming || r.socket) = (r'.streaming || r'.socket) ∧ r.socket = r'.socket ∧
    (r.proxyTarget.isSome || r.proxyDynamic) = (r'.proxyTarget.isSome || r'.proxyDynamic) ∧
    (r.proxyTarget.isSome || (r.proxyDynamic && !r.proxyReadsBody)) =
      (r'.proxyTarget.isSome || (r'.proxyDynamic && !r'.proxyReadsBody)) ∧
    r.limit defaultTimeout = r'.limit defaultTimeout

/-- A route without anything to plan for. -/
def Ordinary (defaultTimeout : Option F64) (r : RouteSpec) : Prop :=
  r.streaming = false ∧ r.socket = false ∧ r.proxyTarget = none ∧ r.proxyDynamic = false ∧
    r.limit defaultTimeout = none

/-- When the plan is right: a route found without the suffix is like the one the path has as it
stands, or an ordinary one where it has none. -/
def SuffixAgrees (rt : ServeRuntime) (method path : Text) (headers : Headers) : Prop :=
  ∀ r, Negotiated rt (effMethod method) path headers r →
    match (rt.hostOf headers).matchRoute (effMethod method) path with
    | some (r', _) => Alike rt.defaultTimeout r' r
    | none => Ordinary rt.defaultTimeout r

/-! ## What answers -/

variable {r : RouteSpec} {params : Params} {fmt : Option Text} {env : Env}

theorem resolve_attended (h : rt.resolve method path headers = .attended r params fmt) :
    (rt.hostOf headers).matchRoute method path = some (r, params) ∨
      Negotiated rt method path headers r := by
  have hexact : (match (rt.hostOf headers).matchRoute method path with
      | some (r, params) => Resolved.attended r params none
      | none => .answered (rt.unrouted method path headers)) = .attended r params fmt →
      (rt.hostOf headers).matchRoute method path = some (r, params) := by
    intro h
    split at h
    · rename_i r' params' hmatch
      cases h
      exact hmatch
    · cases h
  unfold resolve at h
  dsimp only at h
  split at h
  · cases h
  · rename_i hrouter
    split at h
    · cases h
    · rename_i hreserved
      split at h
      · exact .inl (hexact h)
      · rename_i logical fmt' hsplit
        split at h
        · rename_i hneg
          split at h
          · cases h
          · rename_i hstatic
            split at h
            · rename_i r' params' hmatch
              cases h
              exact .inr ⟨hrouter, hreserved, hneg, hstatic, logical, fmt', params, hsplit, hmatch⟩
            · exact .inl (hexact h)
        · exact .inl (hexact h)

theorem resolve_negotiated (h : Negotiated rt method path headers r) :
    ∃ params fmt, rt.resolve method path headers = .attended r params fmt := by
  obtain ⟨logical, fmt, params, hsplit, hmatch⟩ := h.found
  refine ⟨params, some fmt, ?_⟩
  unfold resolve
  simp only [h.router, h.reserved, hsplit, h.negotiates, if_true, h.static, hmatch]

/-! ## What a route does -/

theorem attend_stream (h : attend r env = .stream) : r.streaming = true := by
  unfold attend at h
  split_ifs at h with _ _ _ _ _ _ _ hstream
  exact hstream

theorem attend_socket (h : attend r env = .socket) : r.socket = true := by
  unfold attend at h
  split_ifs at h with _ _ _ _ _ hsocket
  exact hsocket

theorem dispatch_attended (h : rt.resolve method path headers = .attended r params fmt) (env : Env)
    : rt.dispatch method path headers env = attend r env := by
  rw [dispatch, h]

theorem attendRequest_eq_ok {job : Job} (h : rt.attendRequest method path headers env = .ok job) :
    job.dedicated = ((rt.routePlan (effMethod method) path headers).dedicated ||
        rt.isApprovalsRoute (effMethod method) path) ∧
      job.timeout = (rt.routePlan (effMethod method) path headers).timeout ∧
      job.result = rt.dispatch (effMethod method) path headers env ∧
      ((rt.routePlan (effMethod method) path headers).socket = true → job.upgrade.isSome) := by
  unfold attendRequest at h
  dsimp only at h
  split_ifs at h with _ _ hplan _ hsocket
  · cases h
    refine ⟨rfl, rfl, rfl, fun _ => ?_⟩
    have hkey : websocketUpgradeKey headers ≠ none := fun hkey => hplan ⟨hsocket, .inr hkey⟩
    exact Option.isSome_iff_ne_none.mpr hkey
  · cases h
    exact ⟨rfl, rfl, rfl, fun h => absurd h hsocket⟩

theorem law_of_describes
    (hres : rt.resolve (effMethod method) path headers = .attended r params fmt)
    (hplan : Describes (rt.routePlan (effMethod method) path headers) r rt.defaultTimeout)
    {job : Job} (hjob : rt.attendRequest method path headers env = .ok job) :
    (job.result = .stream ∨ job.result = .socket → job.dedicated) ∧
      job.timeout = r.limit rt.defaultTimeout ∧
      (job.result = .socket → job.upgrade.isSome) := by
  obtain ⟨hdedicated, htimeout, hresult, hupgrade⟩ := attendRequest_eq_ok hjob
  rw [dispatch_attended hres] at hresult
  rw [hdedicated, htimeout, hresult, hplan.dedicated]
  refine ⟨?_, hplan.timeout, fun h => ?_⟩
  · rintro (h | h)
    · rw [attend_stream h]
      rfl
    · rw [attend_socket h, Bool.or_true]
      rfl
  · apply hupgrade
    rw [hplan.socket]
    exact attend_socket h

/-! ## The plan -/

theorem describes_exact (h : (rt.hostOf headers).matchRoute method path = some (r, params))
    (r' : RouteSpec) :
    Describes (rt.routePlan method path headers) r' rt.defaultTimeout ↔
      Alike rt.defaultTimeout r r' := by
  unfold routePlan
  rw [h]
  exact ⟨fun ⟨h₁, h₂, h₃, h₄, h₅⟩ => ⟨h₁, h₂, h₃, h₄, h₅⟩,
    fun ⟨h₁, h₂, h₃, h₄, h₅⟩ => ⟨h₁, h₂, h₃, h₄, h₅⟩⟩

theorem describes_none (h : (rt.hostOf headers).matchRoute method path = none) (r : RouteSpec) :
    Describes (rt.routePlan method path headers) r rt.defaultTimeout ↔
      Ordinary rt.defaultTimeout r := by
  unfold routePlan
  rw [h]
  constructor
  · rintro ⟨hdedicated, hsocket, hproxy, -, htimeout⟩
    obtain ⟨hstream, -⟩ := Bool.or_eq_false_iff.mp hdedicated.symm
    obtain ⟨htarget, hdynamic⟩ := Bool.or_eq_false_iff.mp hproxy.symm
    exact ⟨hstream, hsocket.symm, by simpa using htarget, hdynamic, htimeout.symm⟩
  · rintro ⟨hstream, hsocket, htarget, hdynamic, htimeout⟩
    constructor
    · simp [hstream, hsocket]
    · simp [hsocket]
    · simp [htarget, hdynamic]
    · simp [htarget, hdynamic]
    · simp [htimeout]

theorem alike_refl (defaultTimeout : Option F64) (r : RouteSpec) : Alike defaultTimeout r r :=
  ⟨rfl, rfl, rfl, rfl, rfl⟩

/-- **The plan is the route that answers, exactly where a suffix leads to a route like the one the
path has as it stands.** -/
theorem planLaw_iff (rt : ServeRuntime) (method path : Text) (headers : Headers) :
    PlanLaw rt method path headers ↔ SuffixAgrees rt method path headers := by
  constructor
  · intro h r hneg
    obtain ⟨params, fmt, hres⟩ := resolve_negotiated hneg
    have hplan := (h r params fmt hres).1
    split
    · rename_i r' params' hmatch
      exact (describes_exact hmatch r).mp hplan
    · rename_i hmatch
      exact (describes_none hmatch r).mp hplan
  · intro h r params fmt hres
    have hplan : Describes (rt.routePlan (effMethod method) path headers) r rt.defaultTimeout := by
      rcases resolve_attended hres with hmatch | hneg
      · exact (describes_exact hmatch r).mpr (alike_refl _ r)
      · have hagree := h r hneg
        split at hagree
        · rename_i r' params' hmatch
          exact (describes_exact hmatch r).mpr hagree
        · rename_i hmatch
          exact (describes_none hmatch r).mpr hagree
    exact ⟨hplan, fun env job hjob => law_of_describes hres hplan hjob⟩

/-! ## A stream with a suffix -/

/-- A server with one stream at `/events`. -/
def eventsServer : ServeRuntime where
  approvals := false
  healthPath := none
  attestation := false
  defaultHost :=
    { pattern := none
      routes := [⟨"GET", "/events", false, true, false, false, none, none, false,
        false⟩]
      hasMounts := false
      static := fun _ _ => none }
  vhosts := []
  discoveryEnabled := true
  isPrivate := false
  docsEnabled := true
  page := fun _ _ => none
  defaultTimeout := none
  shuttingDown := false

/-- `GET /events.json` runs the stream on a worker of the pool. -/
theorem not_planLaw : ¬ ∀ rt method path headers, PlanLaw rt method path headers := by
  intro h
  have hlaw := h eventsServer "GET" "/events.json" []
  have hres : ∃ r params fmt, eventsServer.resolve (effMethod "GET") "/events.json" []
      = .attended r params fmt ∧ r.streaming = true := ⟨_, _, _, rfl, rfl⟩
  obtain ⟨r, params, fmt, hattended, hstream⟩ := hres
  have hplan := (hlaw r params fmt hattended).1.dedicated
  rw [hstream, Bool.true_or] at hplan
  exact absurd hplan (by decide)

end Synsema.Server.ServeRuntime
