import DesignTokens.Utility.Table

/-! # The built-in table of utilities -/
namespace DesignTokens.Utility

/-- Stems that a color follows. -/
def colorStems : List String :=
  ["bg-", "text-", "border-", "from-", "via-", "to-", "fill-", "stroke-", "placeholder-",
   "caret-", "accent-", "divide-"]

/-- Stems that a step of the spacing scale follows. -/
def spacingStems : List String :=
  ["p-", "px-", "py-", "pt-", "pr-", "pb-", "pl-", "ps-", "pe-", "m-", "mx-", "my-", "mt-", "mr-",
   "mb-", "ml-", "ms-", "me-", "-m-", "-mx-", "-my-", "-mt-", "-mr-", "-mb-", "-ml-", "gap-",
   "gap-x-", "gap-y-", "space-x-", "space-y-", "-space-x-", "-space-y-", "indent-", "scroll-m-",
   "scroll-p-", "-indent-"]

/-- Stems that a keyword, a fraction or a step of the spacing scale follows. -/
def sizingStems : List String :=
  ["w-", "h-", "min-w-", "min-h-", "max-w-", "max-h-", "size-"]

/-- Stems of the width of a border on one side, which is a step of the spacing scale. -/
def borderSideStems : List String :=
  ["border-t-", "border-b-", "border-l-", "border-r-", "border-x-", "border-y-", "border-s-",
   "border-e-"]

/-- The other names and stems of layout. -/
def layoutNames : List String :=
  ["block", "inline-block", "inline", "flex", "inline-flex", "grid", "inline-grid", "contents",
   "hidden", "table", "flow-root", "container", "static", "fixed", "absolute", "relative",
   "sticky", "visible", "invisible", "collapse", "isolate", "grow", "shrink", "mx-auto",
   "my-auto", "m-auto", "mt-auto", "mb-auto", "ml-auto", "mr-auto", "ms-auto", "me-auto",
   "space-x-reverse", "space-y-reverse", "flex-", "basis-", "grow-", "shrink-", "order-",
   "grid-cols-", "grid-rows-", "grid-flow-", "auto-cols-", "auto-rows-", "col-", "row-",
   "justify-", "items-", "content-", "self-", "place-", "z-", "inset-", "top-", "right-",
   "bottom-", "left-", "start-", "end-", "-inset-", "-top-", "-right-", "-bottom-", "-left-",
   "overflow-", "overscroll-", "object-", "aspect-", "columns-", "float-", "clear-", "box-",
   "break-before-", "break-after-", "break-inside-", "-z-"]

/-- Names and stems of typography. -/
def typographyNames : List String :=
  ["font-", "leading-", "tracking-", "whitespace-", "break-", "line-clamp-", "list-", "align-",
   "hyphens-", "decoration-", "underline-offset-", "text-left", "text-center", "text-right",
   "text-justify", "text-start", "text-end", "text-wrap", "text-nowrap", "text-balance",
   "text-pretty", "text-ellipsis", "text-clip", "italic", "not-italic", "underline", "overline",
   "line-through", "no-underline", "uppercase", "lowercase", "capitalize", "normal-case",
   "truncate", "antialiased", "subpixel-antialiased", "sr-only", "not-sr-only", "ordinal",
   "slashed-zero", "tabular-nums", "normal-nums"]

/-- Names and stems of borders, effects, backgrounds, filters, transforms and motion. -/
def decorationNames : List String :=
  ["border", "border-t", "border-b", "border-l", "border-r", "border-x", "border-y",
   "border-solid", "border-dashed", "border-dotted", "border-double", "border-hidden",
   "border-none", "border-collapse", "border-separate", "divide-x", "divide-y", "divide-x-",
   "divide-y-", "divide-solid", "divide-dashed", "divide-dotted", "divide-x-reverse",
   "divide-y-reverse", "rounded", "rounded-", "shadow", "shadow-", "opacity-", "ring", "ring-",
   "ring-inset", "ring-offset-", "outline", "outline-", "mix-blend-", "bg-blend-", "bg-cover",
   "bg-contain", "bg-auto", "bg-center", "bg-top", "bg-bottom", "bg-left", "bg-right", "bg-fixed",
   "bg-local", "bg-scroll", "bg-repeat", "bg-no-repeat", "bg-repeat-x", "bg-repeat-y", "bg-none",
   "bg-gradient-to-", "bg-clip-", "bg-origin-", "blur", "blur-", "brightness-", "contrast-",
   "grayscale", "invert", "sepia", "drop-shadow-", "backdrop-", "transform", "scale-", "rotate-",
   "translate-x-", "translate-y-", "skew-x-", "skew-y-", "origin-", "transition", "transition-",
   "duration-", "ease-", "delay-", "animate-", "cursor-"]

/-- The table in use where no other one is given. -/
def Table.standard : Table :=
  Table.ofGroups
    [(.colors, colorStems),
     (.spacing, spacingStems),
     (.layout, sizingStems ++ borderSideStems ++ layoutNames),
     (.typography, typographyNames),
     (.decoration, decorationNames)]

end DesignTokens.Utility
