import EndpointCompiler.Sorted
import EndpointCompiler.Types.Module

/-! Catalogs of modules, in the order of their names and each name once. -/

namespace EndpointCompiler

structure Catalog where
  modules : List Module

namespace Catalog

/-- Puts a module in its place, instead of one of the same name. -/
def insert (c : Catalog) (m : Module) : Catalog :=
  ⟨insertByName (·.id) m c.modules⟩

def module? (c : Catalog) (id : ModuleId) : Option Module :=
  c.modules.find? (·.id == id)

def lookup? (c : Catalog) : TypeRef → Option TypeInfo
  | .named (some module) name _ => (c.module? module).bind (·.type? name)
  | _ => none

/-- The module of the primitive types, of lists and of maps. -/
def core : Module where
  id := coreModule
  origin := .builtin
  types :=
    Primitive.all.map (fun p => .empty coreModule p.name) ++
      [{ TypeInfo.empty coreModule "List" with genericArity := 1 },
        { TypeInfo.empty coreModule "Map" with genericArity := 2 }]

def host : Module where
  id := hostModule
  origin := .builtin
  types := [{ TypeInfo.empty hostModule "Controller" with base := some objectType }]

def bridge : Module where
  id := bridgeModule
  origin := .builtin
  types := [.empty bridgeModule "RequestProcessor"]

def builtin : Catalog :=
  (((Catalog.mk []).insert core).insert host).insert bridge

/-- The built-in modules and others, of which a later one takes the place of an earlier one. -/
def ofModules (modules : List Module) : Catalog :=
  modules.foldl insert builtin

/-- A module is found after it is put in, and no other module's name is touched. -/
theorem module?_insert (c : Catalog) (m : Module) (id : ModuleId) :
    (c.insert m).module? id = if m.id = id then some m else c.module? id :=
  find?_insertByName id

end Catalog

end EndpointCompiler
