import TemplateCompiler.Extension.Basic

/-!
# Directives of every platform

Binding a whole object of attributes or of listeners, and the directive that only hides a template
until it is compiled.
-/

namespace TemplateCompiler

def listenersDirective : DirectiveHandler := fun _ el dir => do
  unless dir.modifiers.isEmpty do
    Noted.error .listenersWithModifiers dir.span
  return ({ el with boundListeners := dir.value }, false)

def bindDirective : DirectiveHandler := fun _ el dir =>
  let object := dir.value.map fun value =>
    { value, isProp := dir.hasModifier "prop", isSync := dir.hasModifier "sync" : BoundObject }
  pure ({ el with boundObject := object }, false)

def cloakDirective : DirectiveHandler := fun _ el _ => pure (el, false)

def baseDirectives : Dict DirectiveHandler :=
  .ofList [("on", listenersDirective), ("bind", bindDirective), ("cloak", cloakDirective)]

def baseOptions : Options := { directives := baseDirectives }

end TemplateCompiler
