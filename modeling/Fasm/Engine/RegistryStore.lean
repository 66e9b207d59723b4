import Fasm.Engine.RegistryPaths
import Fasm.Lib.FileTree

/-!
# The registry and its directory

The operations of `registry.rs` in full: what they do in memory, and the calls of the operating
system between it.  The data directory is an absolute path.  Every call of the operating system
may fail, as the call of the operation says; a file that cannot be removed stays.

The JSON text of a manifest is a parameter.
-/

namespace Fasm

/-- How the calls of the operating system in one operation go.  The last is the error of
`remove_file`, if it fails, as it does at a name that ends in a separator or has no directory on
its way. -/
structure IoPattern where
  createDirs : Fate (List U8)
  write : Fate (List U8)
  writeTmp : Fate (List U8)
  rename : Fate (List U8)
  removeDir : Fate (List U8)
  removeFile : Option String

/-- `AppRegistry`: what is in memory, and what is on the disk. -/
structure AppRegistry where
  inner : RegistryInner
  tree : FileTree (List U8)

/-- The manifest could not be written. -/
def IoPattern.PersistFails (io : IoPattern) : Prop := ¬ (io.writeTmp = .runs ∧ io.rename = .runs)

section Store

variable (isAlphanumeric : Char → Bool) (p : Platform) (dataDir : Path)
  (serialize : AppManifest → List U8) (io : IoPattern)

/-- The path of a manifest. -/
def manifestPath (ns app : String) : Path := (appDir p dataDir ns app).join p "manifest.json"

/-- The path under which it is written first. -/
def manifestTmp (ns app : String) : Path := (appDir p dataDir ns app).join p "manifest.json.tmp"

/-- `persist_manifest`. -/
def persistManifest (m : AppManifest) (t : FileTree (List U8)) :
    Except String Unit × FileTree (List U8) :=
  match io.writeTmp with
  | .fails e left => (.error ("write manifest tmp: " ++ e), left)
  | .runs =>
    let t := t.write (manifestTmp p dataDir m.ns m.app).normal (serialize m)
    match io.rename with
    | .fails e left => (.error ("rename manifest: " ++ e), left)
    | .runs =>
      (.ok (), t.rename (manifestTmp p dataDir m.ns m.app).normal
        (manifestPath p dataDir m.ns m.app).normal)

namespace AppRegistry

/-- A manifest is looked up, edited in place and persisted. -/
def editPersist (ns app : String) (f : AppManifest → Except String AppManifest)
    (s : AppRegistry) : Except String Unit × AppRegistry :=
  match s.inner.editApp ns app f with
  | .error e => (.error e, s)
  | .ok inner =>
    match inner.getApp ns app with
    | none => (.error (RegistryInner.appNotFound ns app), s)
    | some m =>
      let (result, tree) := persistManifest p dataDir serialize io m s.tree
      (result, ⟨inner, tree⟩)

/-- `create_namespace`. -/
def createNamespace (name : String) (s : AppRegistry) : Except String Unit × AppRegistry :=
  match validateNamespace isAlphanumeric name with
  | .error e => (.error e, s)
  | .ok _ =>
    match io.createDirs with
    | .fails e left => (.error ("failed to create namespace dir: " ++ e), { s with tree := left })
    | .runs =>
      let tree := s.tree.makeDirs (nsDir p dataDir name).normal
      match s.inner.createNamespace name with
      | .error e => (.error e, { s with tree })
      | .ok inner => (.ok (), ⟨inner, tree⟩)

/-- `delete_namespace`. -/
def deleteNamespace (name : String) (s : AppRegistry) : Except String Unit × AppRegistry :=
  match s.inner.deleteNamespace name with
  | .error e => (.error e, s)
  | .ok inner =>
    (.ok (), ⟨inner,
      io.removeDir.leaves (FileTree.removeTree (nsDir p dataDir name).normal) s.tree⟩)

/-- `create_app`. -/
def createApp (ns app : String) (now : Nat) (s : AppRegistry) :
    Except String Unit × AppRegistry :=
  match validateName isAlphanumeric app with
  | .error e => (.error e, s)
  | .ok _ =>
    match s.inner.createApp ns app now with
    | .error e => (.error e, s)
    | .ok inner =>
      match io.createDirs with
      | .fails e left => (.error ("failed to create app dirs: " ++ e), { s with tree := left })
      | .runs =>
        let tree := s.tree.makeDirs (filesDir p dataDir ns app).normal
        -- the manifest is inserted into memory only when it is on the disk
        match persistManifest p dataDir serialize io ⟨ns, app, now, [], []⟩ tree with
        | (.error e, tree) => (.error e, { s with tree })
        | (.ok _, tree) => (.ok (), ⟨inner, tree⟩)

/-- `delete_app`. -/
def deleteApp (ns app : String) (s : AppRegistry) : Except String Unit × AppRegistry :=
  match s.inner.deleteApp ns app with
  | .error e => (.error e, s)
  | .ok inner =>
    (.ok (), ⟨inner,
      io.removeDir.leaves (FileTree.removeTree (appDir p dataDir ns app).normal) s.tree⟩)

/-- `store_file`. -/
def storeFile (ns app filename : String) (data : List U8) (now : Nat) (s : AppRegistry) :
    Except String Unit × AppRegistry :=
  match validateFilename filename with
  | .error e => (.error e, s)
  | .ok _ =>
    match io.write with
    | .fails e left => (.error ("failed to write file: " ++ e), { s with tree := left })
    | .runs =>
      editPersist p dataDir serialize io ns app
        (fun m => .ok (m.storeRecord (.of filename data now)))
        { s with tree := s.tree.write (filePath p dataDir ns app filename).normal data }

/-- `delete_file`, up to the removal of the file. -/
def unlistFile (ns app filename : String) (s : AppRegistry) : Except String Unit × AppRegistry :=
  editPersist p dataDir serialize io ns app (fun m => m.withoutFile filename) s

/-- `delete_file`. -/
def deleteFile (ns app filename : String) (s : AppRegistry) : Except String Unit × AppRegistry :=
  match unlistFile p dataDir serialize io ns app filename s with
  | (.error e, s) => (.error e, s)
  | (.ok _, s) =>
    match io.removeFile with
    | some _ => (.ok (), s)
    | none =>
      (.ok (), { s with tree := s.tree.removeFile (filePath p dataDir ns app filename).normal })

/-- `get_file_path`, with the error of the call that `exists` makes, if it fails: there is nothing
then. -/
def getFilePath (stat : Option String) (ns app filename : String) (s : AppRegistry) :
    Option Path :=
  let path := filePath p dataDir ns app filename
  if stat.isNone && s.tree.pathExists p (p.asksDir filename) path then some path else none

/-- `add_route_record`. -/
def addRouteRecord (ns app : String) (record : RouteRecord) (s : AppRegistry) :
    Except String Unit × AppRegistry :=
  editPersist p dataDir serialize io ns app (fun m => .ok (m.withRoute record)) s

/-- `remove_route_record`. -/
def removeRouteRecord (ns app : String) (routeId : Uuid) (s : AppRegistry) :
    Except String Unit × AppRegistry :=
  editPersist p dataDir serialize io ns app (fun m => .ok (m.withoutRoute routeId)) s

end AppRegistry

/-- A call of the registry that changes it. -/
inductive RegistryCall where
  | createNamespace (name : String)
  | deleteNamespace (name : String)
  | createApp (ns app : String) (now : Nat)
  | deleteApp (ns app : String)
  | storeFile (ns app filename : String) (data : List U8) (now : Nat)
  | deleteFile (ns app filename : String)
  | addRouteRecord (ns app : String) (record : RouteRecord)
  | removeRouteRecord (ns app : String) (routeId : Uuid)

/-- The operation that is called. -/
def RegistryCall.run (s : AppRegistry) : RegistryCall → Except String Unit × AppRegistry
  | .createNamespace name => s.createNamespace isAlphanumeric p dataDir io name
  | .deleteNamespace name => s.deleteNamespace p dataDir io name
  | .createApp ns app now => s.createApp isAlphanumeric p dataDir serialize io ns app now
  | .deleteApp ns app => s.deleteApp p dataDir io ns app
  | .storeFile ns app filename data now =>
    s.storeFile p dataDir serialize io ns app filename data now
  | .deleteFile ns app filename => s.deleteFile p dataDir serialize io ns app filename
  | .addRouteRecord ns app record => s.addRouteRecord p dataDir serialize io ns app record
  | .removeRouteRecord ns app routeId => s.removeRouteRecord p dataDir serialize io ns app routeId

end Store

/-- The app that a call is concerned with. -/
def RegistryCall.app : RegistryCall → Option (String × String)
  | .createNamespace _ | .deleteNamespace _ => none
  | .createApp ns app _ | .deleteApp ns app | .storeFile ns app _ _ _ | .deleteFile ns app _
  | .addRouteRecord ns app _ | .removeRouteRecord ns app _ => some (ns, app)

end Fasm
