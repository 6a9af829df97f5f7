import EeKernel.Lib.Circular
import EeKernel.Intr.Refine
import EeKernel.Intr.InOrder
import EeKernel.Intr.SelfRemove
import EeKernel.Intr.AddDuring
import EeKernel.Intr.UserLevel
import EeKernel.Intr.Reset
import EeKernel.Intr.Deliverable
import EeKernel.Intr.Setters
import EeKernel.Intr.SystemRuns
import EeKernel.Intr.Reentrant
import EeKernel.Intr.Vsync
import EeKernel.Sbus.Confined
import EeKernel.Sbus.Service
import EeKernel.Sbus.Doorbell
import EeKernel.Alarm.SetAlarm
import EeKernel.Sio.Puts
import EeKernel.Sio.Uart
import EeKernel.Vec.Tables
import EeKernel.Vec.Preempted
import EeKernel.Vec.Return
