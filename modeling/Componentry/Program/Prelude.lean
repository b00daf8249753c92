/-!
# The runtime's own declarations

Every program is loaded together with the description of what the component runtime declares: its
decorators, its lifecycle interfaces and its base classes.
-/

namespace Componentry

/-- The description of the runtime. -/
def preludeText : String :=
  "# What the component runtime declares. Loading names this file after the module
# that is configured, and marks it external and ambient.
files:
  - annotations:
      - name: Component
        recognized: true
        component: true
        with_nodes: true
      - name: Service
        recognized: true
        with_nodes: true
      - name: Controller
        recognized: true
        with_nodes: true
    interfaces:
      - name: OnStart
        methods: [\"onStart(): void\"]
      - name: OnInit
        methods: [\"onInit(): void\"]
    classes:
      - name: Instance
        members:
          - field: \"Name: string\"
          - field: \"ClassName: string\"
      - name: Model
        extends: Instance
        members:
          - field: \"PrimaryPart?: Part\"
      - name: Part
        extends: Instance
        members:
          - field: \"Anchored: boolean\"
      - name: BaseComponent
        type_params: [\"A = \x7b\x7d\", \"I = Instance\"]
        members:
          - field: \"attributes: A\"
          - field: \"instance: I\"
"

end Componentry
