/-! Request methods: any token of HTTP, told apart by case. -/

namespace EndpointCompiler

structure Method where
  token : String
  deriving Repr, DecidableEq

namespace Method

def isTokenChar (c : Char) : Bool :=
  c.isAlphanum || "!#$%&'*+-.^_`|~".toList.contains c

def ofToken? (token : String) : Option Method :=
  if token ≠ "" ∧ token.toList.all isTokenChar then some ⟨token⟩ else none

def get : Method := ⟨"GET"⟩
def post : Method := ⟨"POST"⟩
def put : Method := ⟨"PUT"⟩
def delete : Method := ⟨"DELETE"⟩
def patch : Method := ⟨"PATCH"⟩
def head : Method := ⟨"HEAD"⟩
def options : Method := ⟨"OPTIONS"⟩

/-- The methods that handlers may be defined for. -/
def supported : List Method :=
  [get, post, put, delete, patch, head, options]

/-- Whether requests of a method carry their values in a body. -/
def carriesBody (m : Method) : Bool :=
  m == post || m == put || m == patch

end Method

end EndpointCompiler
