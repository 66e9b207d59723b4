import Fasm.Engine.Registry
import Fasm.Lib.Trace

/-!
# The admin requests

The handlers of `admin/` on the registry and the live route table, one request after the other
and without failures of the disk.  A request carries what it reads elsewhere: the time, the
program or the error that `load_program` returns, and the identifier that is drawn.  Requests
that are refused for want of authorisation, for their encoding or for an identifier that is
none change nothing, and are left out.
-/

namespace Fasm

variable {ω : Type}

/-- `AppState`, as far as the admin handlers change it. -/
structure AppState (ω : Type) where
  registry : RegistryInner
  routes : RouteTable ω

/-- A response: its status, with the text of an error.  The JSON bodies are left out. -/
inductive Response where
  | done (status : Nat)
  | refused (status : Nat) (error : String)
deriving DecidableEq

/-- The status that a handler finds by looking into the text of an error. -/
def statusOf (cases : List (String × Nat)) (other : Nat) (e : String) : Nat :=
  match cases.find? fun c => c.1.toList <:+: e.toList with
  | some c => c.2
  | none => other

/-- `RegisterRouteBody`. -/
structure RegisterRouteBody where
  method : String
  path : String
  function : String
  file : String
deriving DecidableEq

/-- The record of a route that is registered under `id`. -/
def RegisterRouteBody.record (toUppercase : String → String) (body : RegisterRouteBody)
    (id : Uuid) : RouteRecord :=
  ⟨id, toUppercase body.method, body.path, body.function, body.file⟩

/-- A handler's answer, when its call of the registry has returned `result`. -/
def AppState.answer (s : AppState ω) (status : Nat) (cases : List (String × Nat)) (other : Nat)
    (result : Except String RegistryInner) : Response × AppState ω :=
  match result with
  | .ok registry => (.done status, { s with registry })
  | .error e => (.refused (statusOf cases other e) e, s)

section Handlers

variable (isAlphanumeric : Char → Bool) (toUppercase : String → String)
  (compile : Program → Option (FasmJit ω))

/-- `create_namespace` of `namespace.rs`. -/
def createNamespace (name : String) (s : AppState ω) : Response × AppState ω :=
  match validateNamespace isAlphanumeric name with
  | .error e => (.refused 400 e, s)
  | .ok _ => s.answer 201 [] 409 (s.registry.createNamespace name)

/-- `delete_namespace` of `namespace.rs`. -/
def deleteNamespace (name : String) (s : AppState ω) : Response × AppState ω :=
  s.answer 204 [("not found", 404), ("not empty", 409)] 500 (s.registry.deleteNamespace name)

/-- `create_app` of `apps.rs`. -/
def createApp (ns name : String) (now : Nat) (s : AppState ω) : Response × AppState ω :=
  s.answer 201 [("not found", 404), ("already exists", 409)] 400
    ((validateName isAlphanumeric name).bind fun _ => s.registry.createApp ns name now)

/-- `upload_file` of `files.rs`, with the uncompressed body. -/
def uploadFile (ns app filename : String) (raw : List U8) (now : Nat) (s : AppState ω) :
    Response × AppState ω :=
  if raw = [] then (.refused 400 "empty file body", s)
  else
    s.answer 200 [("not found", 404)] 400
      ((validateFilename filename).bind fun _ =>
        s.registry.storeFile ns app (.of filename raw now))

/-- `delete_file` of `files.rs`. -/
def deleteFile (ns app filename : String) (s : AppState ω) : Response × AppState ω :=
  s.answer 204 [("not found", 404), ("referenced", 409)] 500
    (s.registry.deleteFile ns app filename)

/-- `register_route` of `routes.rs`: `loaded` is what `load_program` returns, and `drawn` the
identifier of the new route. -/
def registerRoute (ns app : String) (body : RegisterRouteBody) (loaded : Except String Program)
    (drawn : Uuid) (s : AppState ω) : Response × AppState ω :=
  match s.registry.getApp ns app with
  | none => (.refused 404 (RegistryInner.appNotFound ns app), s)
  | some manifest =>
    if !manifest.files.any fun f => f.name == body.file then
      (.refused 404 ("file '" ++ body.file ++ "' not uploaded to app '" ++ ns ++ "/" ++ app ++ "'"),
        s)
    else
      match loaded with
      | .error e => (.refused 422 e, s)
      | .ok program =>
        match s.routes.addRouteDyn toUppercase compile body.method body.path body.function program
          drawn with
        | .error e => (.refused 409 e, s)
        | .ok routes =>
          match s.registry.addRouteRecord ns app (body.record toUppercase drawn) with
          | .error e => (.refused 500 e, { s with routes := (routes.removeRoute drawn).2 })
          | .ok registry => (.done 201, ⟨registry, routes⟩)

/-- `unregister_route` of `routes.rs`. -/
def unregisterRoute (ns app : String) (routeId : Uuid) (s : AppState ω) : Response × AppState ω :=
  match s.routes.removeRoute routeId with
  | (false, _) => (.refused 404 ("route '" ++ routeId ++ "' not found or is a static route"), s)
  | (true, routes) =>
    match s.registry.removeRouteRecord ns app routeId with
    | .error _ => (.done 204, { s with routes })
    | .ok registry => (.done 204, ⟨registry, routes⟩)

/-- `delete_app` of `apps.rs`. -/
def deleteApp (ns app : String) (s : AppState ω) : Response × AppState ω :=
  match s.registry.getApp ns app with
  | none => (.refused 404 (RegistryInner.appNotFound ns app), s)
  | some manifest =>
    let s := { s with routes := s.routes.removeRoutes (manifest.routes.map RouteRecord.id) }
    s.answer 204 [] 500 (s.registry.deleteApp ns app)

end Handlers

/-- A request to the admin interface. -/
inductive AdminRequest where
  | createNamespace (name : String)
  | deleteNamespace (name : String)
  | createApp (ns name : String) (now : Nat)
  | uploadFile (ns app filename : String) (raw : List U8) (now : Nat)
  | deleteFile (ns app filename : String)
  | registerRoute (ns app : String) (body : RegisterRouteBody) (loaded : Except String Program)
    (drawn : Uuid)
  | unregisterRoute (ns app : String) (routeId : Uuid)
  | deleteApp (ns app : String)

/-- The handler of a request. -/
def AdminRequest.handle (isAlphanumeric : Char → Bool) (toUppercase : String → String)
    (compile : Program → Option (FasmJit ω)) (s : AppState ω) :
    AdminRequest → Response × AppState ω
  | .createNamespace name => Fasm.createNamespace isAlphanumeric name s
  | .deleteNamespace name => Fasm.deleteNamespace name s
  | .createApp ns name now => Fasm.createApp isAlphanumeric ns name now s
  | .uploadFile ns app filename raw now => Fasm.uploadFile ns app filename raw now s
  | .deleteFile ns app filename => Fasm.deleteFile ns app filename s
  | .registerRoute ns app body loaded drawn =>
    Fasm.registerRoute toUppercase compile ns app body loaded drawn s
  | .unregisterRoute ns app routeId => Fasm.unregisterRoute ns app routeId s
  | .deleteApp ns app => Fasm.deleteApp ns app s

end Fasm
