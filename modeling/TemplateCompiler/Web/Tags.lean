import TemplateCompiler.Markup.TagTable

/-!
# Tags of the web

The tags that a browser knows, and the attributes that have to be bound as properties to stay in
step with what a user does.
-/

namespace TemplateCompiler.Web

def htmlTags : List String := [
  "html", "body", "base", "head", "link", "meta", "style", "title", "address", "article", "aside",
  "footer", "header", "h1", "h2", "h3", "h4", "h5", "h6", "hgroup", "nav", "section", "div", "dd",
  "dl", "dt", "figcaption", "figure", "picture", "hr", "img", "li", "main", "ol", "p", "pre", "ul",
  "a", "b", "abbr", "bdi", "bdo", "br", "cite", "code", "data", "dfn", "em", "i", "kbd", "mark",
  "q", "rp", "rt", "rtc", "ruby", "s", "samp", "small", "span", "strong", "sub", "sup", "time", "u",
  "var", "wbr", "area", "audio", "map", "track", "video", "embed", "object", "param", "source",
  "canvas", "script", "noscript", "del", "ins", "caption", "col", "colgroup", "table", "thead",
  "tbody", "td", "th", "tr", "button", "datalist", "fieldset", "form", "input", "label", "legend",
  "meter", "optgroup", "option", "output", "progress", "select", "textarea", "details", "dialog",
  "menu", "menuitem", "summary", "content", "element", "shadow", "template", "blockquote", "iframe",
  "tfoot"]

def svgTags : List String := [
  "svg", "animate", "circle", "clippath", "cursor", "defs", "desc", "ellipse", "filter",
  "font-face", "foreignObject", "g", "glyph", "image", "line", "marker", "mask", "missing-glyph",
  "path", "pattern", "polygon", "polyline", "rect", "switch", "symbol", "text", "textpath", "tspan",
  "use", "view"]

def unaryTags : List String := [
  "area", "base", "br", "col", "embed", "frame", "hr", "img", "input", "isindex", "keygen", "link",
  "meta", "param", "source", "track", "wbr"]

def leftOpenTags : List String := [
  "colgroup", "dd", "dt", "li", "options", "p", "td", "tfoot", "th", "thead", "tr", "source"]

def nonPhrasingTags : List String := [
  "address", "article", "aside", "base", "blockquote", "body", "caption", "col", "colgroup", "dd",
  "details", "dialog", "div", "dl", "dt", "fieldset", "figcaption", "figure", "footer", "form",
  "h1", "h2", "h3", "h4", "h5", "h6", "head", "header", "hgroup", "hr", "html", "legend", "li",
  "menuitem", "meta", "optgroup", "option", "param", "rp", "rt", "source", "style", "summary",
  "tbody", "td", "tfoot", "th", "thead", "title", "tr", "track"]

def namespaceOf (tag : String) : Option Namespace :=
  if svgTags.contains tag then some .svg else if tag = "math" then some .math else none

def tagTable : TagTable where
  expectHtml := true
  unary := unaryTags
  leftOpen := leftOpenTags
  nonPhrasing := nonPhrasingTags
  reserved := htmlTags ++ svgTags
  pre := ["pre"]
  namespaceOf := namespaceOf

def mustUseProp (tag : String) (type? : Option String) (attr : String) : Bool :=
  (attr = "value" && ["input", "textarea", "option", "select", "progress"].contains tag &&
      type? ≠ some "button") ||
    (attr = "selected" && tag = "option") || (attr = "checked" && tag = "input") ||
    (attr = "muted" && tag = "video")

end TemplateCompiler.Web
