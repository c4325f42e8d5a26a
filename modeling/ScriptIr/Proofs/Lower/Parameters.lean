import ScriptIr.Lower.Function

/-!
# Parameters

A function that can be lowered has plain names as parameters, and perhaps a rest parameter after them.
-/
namespace ScriptIr.Lower

open ScriptIr.Tree

/-- Parameters with some names, and with a rest parameter at the end or with none. -/
inductive Parameters : List Pattern → List String → Option String → Prop where
  | nil : Parameters [] [] none
  | rest (id : Identifier) (loc : Option Location) :
      Parameters [.rest (.identifier id) loc] [] (some id.name)
  | plain {params : List Pattern} {names : List String} {rest : Option String} (id : Identifier) :
      Parameters params names rest → Parameters (.identifier id :: params) (id.name :: names) rest

theorem parameters_of_names {params : List Pattern} {names : List String} {rest : Option String}
    (h : parameterNames params = .ok (names, rest)) : Parameters params names rest := by
  fun_induction parameterNames params generalizing names rest with
  | case1 => cases h; exact .nil
  | case2 id params ih =>
    cases hparams : parameterNames params with
    | error e => rw [hparams] at h; cases h
    | ok r =>
      rw [hparams] at h
      cases h
      exact .plain id (ih hparams)
  | case3 id loc => cases h; exact .rest id loc
  | case4 | case5 | case6 => cases h

end ScriptIr.Lower
