import TagFormula.Text.Basic

/-!
Loaded modules by path. What the dynamic linker answers is a parameter, so that every statement about
the loader holds whatever the linker does.
-/

namespace TagFormula

/-- A dynamic linker that is asked inside a monad. A refusal comes with its reason. -/
structure Linker (m : Type → Type) (Handle : Type) where
  load : Text → m (Except Text Handle)
  close : Handle → m (Except Text Unit)
  symbol : Handle → Text → m (Except Text Unit)

/-- The modules that are loaded, each with its path. -/
structure Loader (Handle : Type) where
  modules : List (Text × Handle)

namespace Loader

inductive Refusal where
  | notLoaded (path : Text)
  | loadFailed (path reason : Text)
  | unloadFailed (path reason : Text)
  | missingSymbol (path name reason : Text)
  deriving DecidableEq, Repr

def Refusal.message : Refusal → Text
  | .notLoaded path => ascii "Module not loaded: " ++ path
  | .loadFailed path reason => ascii "Failed to load module " ++ path ++ ascii ": " ++ reason
  | .unloadFailed path reason => ascii "Failed to unload module " ++ path ++ ascii ": " ++ reason
  | .missingSymbol path name reason =>
    ascii "Missing symbol " ++ name ++ ascii " in " ++ path ++ ascii ": " ++ reason

variable {m : Type → Type} [Monad m] {Handle : Type}

def empty : Loader Handle := ⟨[]⟩

/-- The handle of a loaded module. -/
def handle? (l : Loader Handle) (path : Text) : Option Handle :=
  (l.modules.find? (·.1 == path)).map (·.2)

def isLoaded (l : Loader Handle) (path : Text) : Bool := (l.handle? path).isSome

/-- Forgets the first module with a path. -/
def forget (l : Loader Handle) (path : Text) : Loader Handle :=
  ⟨l.modules.eraseP (·.1 == path)⟩

/-- Unloads a module. It is forgotten even if the linker refuses to close it. -/
def unload (k : Linker m Handle) (l : Loader Handle) (path : Text) :
    m (Loader Handle × Except Refusal Unit) :=
  match l.handle? path with
  | none => pure (l, .error (.notLoaded path))
  | some h => do
    match ← k.close h with
    | .ok () => pure (l.forget path, .ok ())
    | .error reason => pure (l.forget path, .error (.unloadFailed path reason))

/-- Loads a module that is not loaded. -/
def loadNew (k : Linker m Handle) (l : Loader Handle) (path : Text) :
    m (Loader Handle × Except Refusal Unit) := do
  match ← k.load path with
  | .ok h => pure (⟨l.modules ++ [(path, h)]⟩, .ok ())
  | .error reason => pure (l, .error (.loadFailed path reason))

/-- Loads a module. One that is loaded is unloaded first, and stays so if that is refused. -/
def load (k : Linker m Handle) (l : Loader Handle) (path : Text) :
    m (Loader Handle × Except Refusal Unit) := do
  if l.isLoaded path then
    match ← l.unload k path with
    | (l, .ok ()) => l.loadNew k path
    | refused => pure refused
  else l.loadNew k path

/-- Looks for a symbol in a loaded module. -/
def symbol (k : Linker m Handle) (l : Loader Handle) (path name : Text) : m (Except Refusal Unit) :=
  match l.handle? path with
  | none => pure (.error (.notLoaded path))
  | some h => do
    match ← k.symbol h name with
    | .ok () => pure (.ok ())
    | .error reason => pure (.error (.missingSymbol path name reason))

/-- Closes all modules, the last one first. -/
def closeAll (k : Linker m Handle) (l : Loader Handle) : m Unit :=
  l.modules.reverse.forM fun entry => discard (k.close entry.2)

end Loader

/-- A linker over modules that are known with their symbols. A handle is the path of its module. -/
def Linker.ofModules (symbols? : Text → Option (List Text)) : Linker Id Text where
  load path :=
    if (symbols? path.upToZero).isSome then .ok path.upToZero
    else .error (path.upToZero
      ++ ascii ": cannot open shared object file: No such file or directory")
  close _ := .ok ()
  symbol path name :=
    if ((symbols? path).getD []).contains name.upToZero then .ok ()
    else .error (path ++ ascii ": undefined symbol: " ++ name.upToZero)

end TagFormula
