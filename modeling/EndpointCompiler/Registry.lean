import EndpointCompiler.Build

/-! The modules that a host knows, and those that are registered with it while it runs. -/

namespace EndpointCompiler

/-- A module with a number by which it is told apart from others that may be equal to it. -/
structure ModuleHandle where
  number : Nat
  module : Module

def ModuleHandle.id (h : ModuleHandle) : ModuleId :=
  h.module.id

def offeringTypes (modules : List ModuleHandle) : List TypeInfo :=
  modules.flatMap fun h => h.module.types.filter (·.isEndpoint)

/-- The types that a host finds by itself, which are none in modules made at run time. -/
def hostOfferingTypes (modules : List ModuleHandle) : List TypeInfo :=
  offeringTypes (modules.filter (·.module.origin != .dynamic))

structure ModuleConflict where
  id : ModuleId
  deriving Repr, DecidableEq

def ModuleConflict.message (e : ModuleConflict) : String :=
  "a different module is already registered as '" ++ e.id ++ "'"

structure Registry where
  host : List ModuleHandle
  registered : List ModuleHandle

namespace Registry

/-- A registry to which nothing is registered yet. -/
def ofHost (host : List ModuleHandle) : Registry := ⟨host, []⟩

/-- The host's modules and then the registered ones with other names. -/
def modules (r : Registry) : List ModuleHandle :=
  r.registered.foldl (fun ms h => if ms.any (·.id == h.id) then ms else ms ++ [h]) r.host

def isRegistered (r : Registry) (h : ModuleHandle) : Bool :=
  r.registered.any (·.number == h.number)

/-- The types that offer operations: those that the host finds, then those of registered
modules. -/
def endpointTypes (r : Registry) (modules : List ModuleHandle) : List TypeInfo :=
  hostOfferingTypes (modules.filter (!r.isRegistered ·)) ++
    offeringTypes (modules.filter (r.isRegistered ·))

/-- Registers a module, and tells whether it was new. -/
def register (r : Registry) (h : ModuleHandle) : Except ModuleConflict (Bool × Registry) :=
  match r.registered.find? (·.id == h.id) with
  | some known => if known.number = h.number then .ok (false, r) else .error ⟨h.id⟩
  | none =>
    if r.host.any (·.id == h.id) then .error ⟨h.id⟩
    else .ok (true, { r with registered := r.registered ++ [h] })

end Registry

inductive ConfigureError where
  | build (error : BuildError)
  | registry (error : ModuleConflict)
  deriving Repr, DecidableEq

def ConfigureError.message : ConfigureError → String
  | .build e => e.message
  | .registry e => e.message

/-- Registers the module for definitions under a new number. Nothing is registered if it cannot be
built. -/
def Registry.configure (r : Registry) (number : Nat) (b : Builder) (ds : List HandlerDefinition)
    (files : FileTree) : Except ConfigureError (CompiledModule × Registry) × FileTree :=
  match b.build ds files with
  | (.error e, files) => (.error (.build e), files)
  | (.ok compiled, files) =>
    match r.register ⟨number, compiled.module⟩ with
    | .error e => (.error (.registry e), files)
    | .ok (_, r) => (.ok (compiled, r), files)

end EndpointCompiler
